import ShaderTree.Proofs.SameCourse

/-! When scalarization keeps the course of a program. The arguments of a constructor are evaluated
in front of the whole statement, once and whatever the conditions in it come to. That is the same
if each argument may change places with what comes before it in the statement, and is evaluated
whenever the statement is or makes no difference. -/
namespace ShaderTree

open Course

namespace Term

variable (watch : Watch)

/-- Nothing happens in the expression outside of the arguments that it sends up. -/
def Bare (reads : Bool) (term : Term) : Prop := ∀ piece, term.Keeps piece → piece.Silent watch reads

/-- Nothing happens in the arguments that the statement sends up. -/
def Idle (reads : Bool) (term : Term) : Prop :=
  ∀ piece, term.Keeps piece → piece.mixes = true → ∀ argument ∈ piece.parts, argument.All (Silent watch reads)

/-- What `later` sends up may change places with what stays of `earlier`: one of them is constant, or
both do no more than read. -/
def Apart (earlier later : Term) : Prop :=
  earlier.Bare watch false ∨ later.Idle watch false ∨ earlier.Bare watch true ∧ later.Idle watch true

/-- What the statement sends up may be evaluated before all else in it, whether it is needed or not. -/
inductive Leads : Term → Prop where
  | idle {term : Term} (quiet : term.Idle watch false) : Leads term
  | split {term : Term} (mixed : term.mixes = true) : Leads term
  | strict {id : NodeId} {node : Node} {parts : List Term} (strict : node.isStrict = true)
      (quiet : ∀ part ∈ parts.take (mk id node parts).targets, part.Idle watch false)
      (each : ∀ part ∈ parts.drop (mk id node parts).targets, Leads part)
      (apart : (parts.drop (mk id node parts).targets).Pairwise (Apart watch)) : Leads (mk id node parts)
  | choice {id : NodeId} {node : Node} {part : Term} {others : List Term} (choice : node.isChoice = true)
      (first : Leads part) (each : ∀ other ∈ others, Leads other) (quiet : ∀ other ∈ others, other.Idle watch true)
      (apart : ∀ other ∈ others, Apart watch part other) : Leads (mk id node (part :: others))
  | loop {id init body : NodeId} {kind : LoopKind} {condition step : Option NodeId} {part : Term} {others : List Term}
      (first : Leads part) (quiet : ∀ other ∈ others, other.Idle watch false) :
      Leads (mk id (.loop kind (some init) condition step body) (part :: others))

/-- Of every statement in a block of the program, what it sends up may be evaluated first. -/
def Orderly (term : Term) : Prop :=
  ∀ block, term.Exposes block → block.node.isBlock = true → ∀ statement ∈ block.parts, statement.Leads watch

variable {watch} {machine : Machine α} {term : Term} {number : Nat}

theorem Idle.of_unmixed {reads : Bool} (unmixed : ∀ piece ∈ term.pieces, piece.mixes = false) : term.Idle watch reads :=
  fun piece keeps mixes => absurd ((unmixed piece keeps.exposes.mem_pieces).symm.trans mixes) Bool.false_ne_true

theorem Idle.of_block {reads : Bool} (block : term.node.isBlock = true) : term.Idle watch reads := by
  intro piece keeps mixes
  cases keeps with
  | here => exact absurd (mixes.symm.trans (mixes_of_block block)) (by decide)
  | step _ inner => exact absurd (block.symm.trans inner) (by decide)

theorem names_of_declared (declared : .pool ⟨number⟩ ∈ term.declared) : ∃ symbol ∈ term.pieces, symbol.Names number := by
  obtain ⟨id, node, parts⟩ := term
  cases node with
  | declaration declarator value =>
    cases parts with
    | nil => cases declared
    | cons part parts =>
      obtain ⟨own, inner, below⟩ := part
      cases inner with
      | symbol ref ty =>
        obtain rfl := List.mem_singleton.mp declared
        exact ⟨_, mem_pieces_of_part List.mem_cons_self (mem_pieces_self _), ty, rfl⟩
      | _ => cases declared
  | _ => cases declared

/-- Running statements changes no temporaries but those that they declare. -/
theorem steps_returns (terms : List Term) (held : Held α) : Returns (steps machine terms held) fun after =>
    ∀ symbol, (∀ declaration ∈ terms, symbol ∉ declaration.declared) → after symbol = held symbol := by
  induction terms generalizing held with
  | nil => exact .pure fun _ _ => rfl
  | cons term terms ih =>
    refine (Returns.any _).bind fun value _ => Returns.imp (ih _) fun after same symbol apart => ?_
    obtain ⟨own, rest⟩ := List.forall_mem_cons.mp apart
    rw [same symbol rest, Held.declare, if_neg own]

end Term

namespace Rewriting

variable {machine : Machine α} {low : Nat} {term : Term} {result : Rewriting} {id : NodeId} {node : Node}
  {parts : List Term} {results : List Rewriting}

def Spares (low : Nat) (one other : Rewriting) : Prop :=
  ∀ piece ∈ one.term.pieces, ∀ number, piece.Names number → low ≤ number →
    ∀ declaration ∈ other.moved, .pool ⟨number⟩ ∉ declaration.declared

structure Behaves (machine : Machine α) (term : Term) (result : Rewriting) : Prop where
  sends : ∀ reads, term.Idle machine.toWatch reads → ∀ held, Limited reads (Term.steps machine result.moved held)
  stays : ∀ reads, term.Bare machine.toWatch reads → ∀ held, Limited reads (result.term.course machine held)
  joins : term.Leads machine.toWatch → ∀ held other,
    Term.steps machine result.moved held >>= result.term.course machine = term.course machine other

def halves (machine : Machine α) (other : Held α) (pair : Term × Rewriting) : Halves (Effect α) (Held α) (Value α) where
  sent := Term.steps machine pair.2.moved
  stay := pair.2.term.course machine
  whole := pair.1.course machine other

theorem Spares.ignores {one other : Term × Rewriting} (spares : Spares machine.low one.2 other.2) (held : Held α) :
    (halves machine held one).Ignores (halves machine held other) := by
  intro before
  refine Returns.imp (Term.steps_returns other.2.moved before) fun after same => ?_
  refine Term.course_congr rfl rfl (fun _ _ => rfl) fun piece inside symbol ty node keeps => ?_
  cases symbol with
  | builtIn => cases keeps
  | pool handle => exact same _ (spares piece inside handle.index ⟨ty, node⟩ (of_decide_eq_true keeps))

theorem Behaves.passes {one other : Term × Rewriting} (first : Behaves machine one.1 one.2)
    (second : Behaves machine other.1 other.2) (apart : Term.Apart machine.toWatch one.1 other.1) (held : Held α) :
    (halves machine held one).Passes (halves machine held other) := by
  intro before after
  rcases apart with bare | idle | ⟨bare, idle⟩
  · exact .of_constant (first.stays false bare before)
  · exact (Commutes.of_constant (second.sends false idle after)).symm
  · exact .of_limited (first.stays true bare before) (second.sends true idle after)

theorem sendAll_halves (pairs : List (Term × Rewriting)) (other held : Held α) :
    Halves.sendAll (pairs.map (halves machine other)) held = Term.steps machine ((pairs.map Prod.snd).flatMap moved) held := by
  induction pairs generalizing held with
  | nil => rfl
  | cons pair pairs ih =>
    rw [List.map_cons, List.map_cons, List.flatMap_cons, Term.steps_append, Halves.sendAll]
    exact bind_congr fun between => ih between

theorem targets_choice {parts : List Term} (choice : node.isChoice = true) : (Term.mk id node parts).targets = 0 := by
  cases node with
  | binary op left right ty => cases op <;> first | rfl | cases choice
  | ternary | ifElse => rfl
  | _ => cases choice

/-- What all parts of a node send up may be evaluated first. -/
theorem run_halves {pairs : List (Term × Rewriting)} (plain : (Term.mk id node (pairs.map Prod.fst)).mixes = false)
    (inner : node.isBlock = false) (behaves : ∀ pair ∈ pairs, Behaves machine pair.1 pair.2)
    (spares : (pairs.map Prod.snd).Pairwise (Spares machine.low))
    (leads : (Term.mk id node (pairs.map Prod.fst)).Leads machine.toWatch)
    (finish : List (Value α) → Course (Effect α) (Value α)) (held other : Held α) :
    (Halves.sendAll (pairs.map (halves machine other)) held >>= fun after =>
        node.run machine.toWorld finish (((pairs.map (halves machine other)).map fun part => part.stay after).drop
          (Term.mk id node (pairs.map Prod.fst)).targets)) =
      node.run machine.toWorld finish (((pairs.map (halves machine other)).map Halves.whole).drop
        (Term.mk id node (pairs.map Prod.fst)).targets) := by
  have ignores : (pairs.map (halves machine other)).Pairwise Halves.Ignores :=
    List.pairwise_map.mpr ((List.pairwise_map.mp spares).imp fun spares => spares.ignores other)
  have joins : ∀ pair ∈ pairs, pair.1.Leads machine.toWatch → (halves machine other pair).Joins :=
    fun pair member leads held => (behaves pair member).joins leads held other
  have constant : ∀ pair ∈ pairs, pair.1.Idle machine.toWatch false →
      ∀ held, Limited false ((halves machine other pair).sent held) := fun pair member => (behaves pair member).sends false
  generalize parts : pairs.map Prod.fst = parts at leads
  cases leads with
  | idle quiet =>
    have idle : ∀ pair ∈ pairs, pair.1.Idle machine.toWatch false := fun pair member piece keeps =>
      quiet piece (.step (parts ▸ plain) inner (parts ▸ List.mem_map_of_mem member) keeps)
    refine Halves.send_constant (fun courses => node.run machine.toWorld finish (courses.drop _)) ?_ ignores ?_ held
    · exact List.forall_mem_map.mpr fun pair member => joins pair member (.idle (idle pair member))
    · exact List.forall_mem_map.mpr fun pair member => constant pair member (idle pair member)
  | split mixed => exact absurd (plain.symm.trans (parts ▸ mixed)) Bool.false_ne_true
  | strict strict quiet each apart =>
    subst parts
    generalize (Term.mk id node (pairs.map Prod.fst)).targets = count at *
    rw [← List.map_take] at quiet
    rw [← List.map_drop] at each apart
    simp only [Node.run_strict strict]
    rw [← bind_assoc, Halves.send_gather_drop count _ _ _ _ held]
    · rw [← List.map_take]
      exact List.forall_mem_map.mpr fun pair member =>
        constant pair (List.mem_of_mem_take member) (quiet _ (List.mem_map_of_mem member))
    · rw [← List.map_drop]
      exact List.forall_mem_map.mpr fun pair member =>
        joins pair (List.mem_of_mem_drop member) (each _ (List.mem_map_of_mem member))
    · exact ignores.drop
    · rw [← List.map_drop]
      refine List.pairwise_map.mpr ((List.pairwise_map.mp apart).imp_of_mem fun first second apart => ?_)
      exact (behaves _ (List.mem_of_mem_drop first)).passes (behaves _ (List.mem_of_mem_drop second)) apart other
  | choice choice first each quiet apart =>
    obtain ⟨head, rest, rfl, rfl, rfl⟩ := List.map_eq_cons_iff.mp parts
    have among : ∀ pair ∈ rest, pair ∈ head :: rest := fun pair member => List.mem_cons_of_mem _ member
    obtain ⟨own, ignores⟩ := List.pairwise_cons.mp ignores
    simp only [targets_choice choice, List.drop_zero, List.map_cons, Node.run_choice choice]
    refine Halves.send_cons _ (joins head List.mem_cons_self first) own ?_ (fun value state => ?_) held
    · refine List.forall_mem_map.mpr fun pair member => ?_
      exact (behaves head List.mem_cons_self).passes (behaves pair (among pair member)) (apart _ (List.mem_map_of_mem member)) other
    · refine Halves.send_choice ?_ ignores ?_ state
      · exact List.forall_mem_map.mpr fun pair member => joins pair (among pair member) (each _ (List.mem_map_of_mem member))
      · refine List.forall_mem_map.mpr fun pair member => ?_
        exact (behaves pair (among pair member)).sends true (quiet _ (List.mem_map_of_mem member))
  | @loop _ init block kind condition step _ _ first quiet =>
    obtain ⟨head, rest, rfl, rfl, rfl⟩ := List.map_eq_cons_iff.mp parts
    have among : ∀ pair ∈ rest, pair ∈ head :: rest := fun pair member => List.mem_cons_of_mem _ member
    have idle : ∀ pair ∈ rest, pair.1.Idle machine.toWatch false := fun pair member => quiet _ (List.mem_map_of_mem member)
    obtain ⟨own, ignores⟩ := List.pairwise_cons.mp ignores
    obtain ⟨body, runs⟩ := Node.run_loop machine.toWorld finish kind init block condition step
    simp only [Term.targets, Term.node, List.drop_zero, List.map_cons, runs]
    refine Halves.send_cons _ (joins head List.mem_cons_self first) own ?_ (fun value state => ?_) held
    · refine List.forall_mem_map.mpr fun pair member state after => ?_
      exact (Commutes.of_constant (constant pair (among pair member) (idle pair member) after)).symm
    · refine Halves.send_constant body ?_ ignores ?_ state
      · exact List.forall_mem_map.mpr fun pair member => joins pair (among pair member) (.idle (idle pair member))
      · exact List.forall_mem_map.mpr fun pair member => constant pair (among pair member) (idle pair member)

/-- A node that keeps its place takes the course that it took if its parts do. -/
theorem behaves_keep (plain : (Term.mk id node parts).mixes = false) (inner : node.isBlock = false)
    (length : parts.length = results.length)
    (each : ∀ part result, (part, result) ∈ parts.zip results → Behaves machine part result)
    (spares : results.Pairwise (Spares machine.low))
    (targets : (Term.mk id node (results.map Rewriting.term)).targets = (Term.mk id node parts).targets)
    (finish : ∀ held other, (Term.mk id node (results.map Rewriting.term)).finish machine held =
      (Term.mk id node parts).finish machine other) :
    Behaves machine (.mk id node parts) (rebuild id node results) := by
  obtain ⟨pairs, rfl, rfl, zipped⟩ := exists_pairs length
  rw [zipped] at each
  have behaves : ∀ pair ∈ pairs, Behaves machine pair.1 pair.2 := fun pair member => each pair.1 pair.2 member
  rw [rebuild_keep inner]
  refine ⟨fun reads idle held => ?_, fun reads bare held => ?_, fun leads held other => ?_⟩
  · rw [← sendAll_halves pairs held held]
    refine Halves.limited_all (fun part member state => ?_) held
    obtain ⟨pair, among, rfl⟩ := List.mem_map.mp member
    exact (behaves pair among).sends reads (fun piece keeps => idle piece (.step plain inner (List.mem_map_of_mem among) keeps)) state
  · have own := bare _ .here
    have expression : node.ty?.isSome = true := own.1
    rw [Term.course_plain inner]
    obtain ⟨operands, runs, limited⟩ := Node.exists_operands expression reads machine.toWorld
      ((Term.mk id node ((pairs.map Prod.snd).map Rewriting.term)).finish machine held)
      ((((pairs.map Prod.snd).map Rewriting.term).map fun part => part.course machine held).drop
        (Term.mk id node ((pairs.map Prod.snd).map Rewriting.term)).targets)
    rw [runs]
    refine (limited fun course member => ?_).bind (Term.finish_limited own)
    rw [List.map_map, List.map_map] at member
    obtain ⟨pair, among, rfl⟩ := List.mem_map.mp (List.mem_of_mem_drop member)
    exact (behaves pair among).stays reads (fun piece keeps => bare piece (.step plain inner (List.mem_map_of_mem among) keeps)) held
  · have stays (after : Held α) : (Term.mk id node ((pairs.map Prod.snd).map Rewriting.term)).course machine after =
        node.run machine.toWorld ((Term.mk id node (pairs.map Prod.fst)).finish machine other)
          (((pairs.map (halves machine other)).map fun part => part.stay after).drop
            (Term.mk id node (pairs.map Prod.fst)).targets) := by
      rw [Term.course_plain inner, finish after other, targets, List.map_map, List.map_map, List.map_map]
      rfl
    have ran : (Term.mk id node (pairs.map Prod.fst)).course machine other =
        node.run machine.toWorld ((Term.mk id node (pairs.map Prod.fst)).finish machine other)
          (((pairs.map (halves machine other)).map Halves.whole).drop (Term.mk id node (pairs.map Prod.fst)).targets) := by
      rw [Term.course_plain inner, List.map_map, List.map_map]
      rfl
    rw [← sendAll_halves pairs other held, ran, ← run_halves plain inner behaves spares leads _ held other]
    exact bind_congr stays

theorem steps_statements {pairs : List (Term × Rewriting)} (behaves : ∀ pair ∈ pairs, Behaves machine pair.1 pair.2)
    (leads : ∀ pair ∈ pairs, pair.1.Leads machine.toWatch) (next : Course (Effect α) β) (held other : Held α) :
    (Term.steps machine ((pairs.map Prod.snd).flatMap statements) held >>= fun _ => next) =
      Term.steps machine (pairs.map Prod.fst) other >>= fun _ => next := by
  induction pairs generalizing held other with
  | nil => rfl
  | cons pair pairs ih =>
    obtain ⟨own, behaves⟩ := List.forall_mem_cons.mp behaves
    obtain ⟨first, leads⟩ := List.forall_mem_cons.mp leads
    simp only [List.map_cons, List.flatMap_cons, statements, Term.steps_append, Term.steps_cons, Term.steps_nil, bind_assoc,
      pure_bind]
    have later (after : Held α) := ih behaves leads after other
    simp only [later]
    rw [← bind_assoc, own.joins first held other]
    exact bind_congr fun value => (ih behaves leads other _).symm.trans (ih behaves leads other _)

theorem behaves_block (block : node.isBlock = true) (length : parts.length = results.length)
    (each : ∀ part result, (part, result) ∈ parts.zip results → Behaves machine part result)
    (orderly : ∀ part ∈ parts, part.Leads machine.toWatch) : Behaves machine (.mk id node parts) (rebuild id node results) := by
  obtain ⟨pairs, rfl, rfl, zipped⟩ := exists_pairs length
  rw [zipped] at each
  have image : rebuild id node (pairs.map Prod.snd) = ⟨[], .mk id (.block (((pairs.map Prod.snd).flatMap statements).map Term.id))
      ((pairs.map Prod.snd).flatMap statements)⟩ := by
    rw [rebuild, block]
    rfl
  rw [image]
  refine ⟨fun reads _ held => .pure held, fun reads bare => ?_, fun _ held other => ?_⟩
  · have plain := Term.isBlock_expression (bare _ .here).1
    exact absurd (plain.symm.trans block) Bool.false_ne_true
  · rw [Term.steps_nil, pure_bind, Term.course_block rfl, Term.course_block block]
    exact steps_statements (fun pair member => each pair.1 pair.2 member)
      (fun pair member => orderly pair.1 (List.mem_map_of_mem member)) _ held other

end Rewriting

/-- New variables do not occur in what becomes of the pieces before. -/
theorem Scalarizes.spares {pool : Pool} {low first last : Nat} {terms : List Term} {fresh : List NodeId}
    {results : List Rewriting} (scalarizes : Scalarizes pool first terms fresh results last)
    (old : ∀ term ∈ terms, term.All (Term.Predates low)) : results.Pairwise (Rewriting.Spares low) := by
  induction terms generalizing first fresh results with
  | nil =>
    cases scalarizes
    exact .nil
  | cons term terms ih =>
    obtain ⟨result, others, inside, outside, between, rfl, rfl, own, rest⟩ := scalarizes.uncons
    obtain ⟨here, later⟩ := List.forall_mem_cons.mp old
    refine List.pairwise_cons.mpr ⟨fun other among piece within number names new declaration moved declared => ?_, ih rest later⟩
    obtain ⟨symbol, deeper, again⟩ := Term.names_of_declared declared
    have before := own.temporaries (List.forall_mem_singleton.mpr here) List.mem_cons_self
      (Rewriting.mem_pieces_iff.mpr (.inr within)) names new
    have after := rest.temporaries later among (Rewriting.mem_pieces_iff.mpr (.inl ⟨declaration, moved, deeper⟩)) again new
    omega

namespace Term

variable {machine : Machine α} {id : NodeId} {node : Node} {parts images : List Term}

theorem targets_keep (faces : images.map face = parts.map face) : (mk id node images).targets = (mk id node parts).targets := by
  cases node with
  | binary op left right ty =>
    cases op with
    | assign =>
      cases images <;> cases parts
      · rfl
      · cases faces
      · cases faces
      · have same : _ = _ := congrArg Face.symbol? (List.cons.inj faces).1
        exact congrArg (fun symbol : Option SymbolRef => if symbol.isSome then 1 else 0) same
    | _ => rfl
  | _ => rfl

/-- A node with other parts that show the same finishes as before. -/
theorem finish_keep (faces : images.map face = parts.map face)
    (own : ∀ symbol ty, node = .symbol symbol ty → machine.keeps symbol = false) (held other : Held α) :
    (mk id node images).finish machine held = (mk id node parts).finish machine other := by
  have records : (mk id node images).records machine.toWatch = (mk id node parts).records machine.toWatch := by
    simp only [Term.records, declared_keep faces]
    rfl
  have value : (mk id node images).value machine held = (mk id node parts).value machine other := by
    funext events operands
    cases node with
    | symbol symbol ty =>
      simp only [Term.value, operator?, Term.node, own symbol ty rfl]
      rfl
    | aggregate op arguments ty =>
      have same : images.filterMap Term.ty? = parts.filterMap Term.ty? := by
        have same := congrArg (List.filterMap Face.ty?) faces
        rwa [List.filterMap_map, List.filterMap_map] at same
      cases op with
      | construct => simp only [Term.value, operator?, Term.node, Term.parts, same]
      | call => rfl
    | _ => rfl
  funext operands
  unfold Term.finish
  simp only [records, value]
  rfl

end Term

namespace Run

variable {machine : Machine α} {pool : Pool} {run : Run pool machine.low} {tree : Tree}

theorem Split.behaves {ids : List NodeId} {ty : Ty} {declarations accesses : List Term}
    (split : run.Split ids ty declarations accesses) (mixes : run.term.mixes = true) (stands : run.result.term.Of tree)
    (new : ∀ id ∈ run.fresh, machine.watched id = false) : Rewriting.Behaves machine run.term run.result := by
  have high := run.high
  have before := run.old.parts
  obtain ⟨node, result, _, splits⟩ := split
  rw [result] at stands ⊢
  generalize run.term = term at *
  obtain ⟨id, _, arguments⟩ := term
  obtain rfl := node
  refine ⟨fun reads idle held => ?_, fun reads bare held => ?_, fun _ held other => ?_⟩
  · rw [splits.steps_declarations high new before held held]
    refine (Limited.gather fun course member => ?_).bind fun values => .pure _
    obtain ⟨argument, among, rfl⟩ := List.mem_map.mp member
    exact Term.course_limited (idle _ .here mixes argument among) held
  · have own : (Term.mk id (.aggregate .construct (accesses.map Term.id) ty) accesses).Silent machine.toWatch reads :=
      ⟨rfl, (bare _ .here).2.1, fun _ => rfl⟩
    refine Term.course_limited (.mk own fun access member => ?_) held
    exact (splits.accesses_silent high new access member).imp fun _ silent => silent.weaken
  · exact splits.course_eq mixes high new before (fun access member => stands.parts member) held other

theorem behaves (run : Run pool machine.low) (stands : run.result.term.Of tree)
    (new : ∀ id ∈ run.fresh, machine.watched id = false) (orderly : run.term.Orderly machine.toWatch) :
    Rewriting.Behaves machine run.term run.result := by
  generalize same : run.term = term
  induction term using Term.induct generalizing run with
  | step id node parts ih =>
    cases mixes : run.term.mixes with
    | true =>
      obtain ⟨ids, ty, declarations, accesses, split⟩ := run.exists_split mixes
      exact same ▸ split.behaves mixes stands new
    | false =>
      obtain ⟨results, below⟩ := run.exists_below mixes
      have old := run.old
      obtain ⟨first, last, fresh, _, result, scalarizes, high, _⟩ := run
      obtain rfl : _ = Term.mk id node parts := same
      obtain rfl : result = .rebuild id node results := below.result
      have each : ∀ part image, (part, image) ∈ parts.zip results → Rewriting.Behaves machine part image := by
        intro part image pair
        obtain ⟨other, rfl, rfl, includes⟩ := below.place pair
        have member : other.term ∈ parts := (List.of_mem_zip pair).1
        refine ih other.term member other (stands.of_mem_pieces includes.result) (fun id among => new id (includes.fresh id among)) ?_ rfl
        exact fun block exposes => orderly block (.step mixes member exposes)
      have length : parts.length = results.length := below.scalarizes.length_eq
      cases block : node.isBlock with
      | true => exact Rewriting.behaves_block block length each (orderly _ .here block)
      | false =>
        have faces := Rewrites.faces length (below.scalarizes.rewrites high).2
        exact Rewriting.behaves_keep mixes block length each (below.scalarizes.spares old.parts)
          (Term.targets_keep faces) (Term.finish_keep faces fun symbol ty here => old.not_keeps symbol ty here)

end Run
end ShaderTree
