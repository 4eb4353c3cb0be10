import ShaderTree.Proofs.Encodings
import ShaderTree.Proofs.Nesting

/-! The routes through a structure to its samplers. Collecting samplers builds their names on the way; without
names it is a list of routes. Every route is listed once, in the order of fields and of array elements. -/
namespace ShaderTree

variable {α : Type u} {β : Type v} {γ : Type w} {ε : Type x}

/-! ### Lists from each item -/

theorem map_eq_ok {computation : Except ε α} {f : α → β} {result : β} :
    computation.map f = .ok result ↔ ∃ value, computation = .ok value ∧ f value = result := by
  cases computation <;> simp [Except.map]

def collectEach (items : List α) (step : α → Except ε (List β)) : Except ε (List β) := do
  return (← items.mapM step).flatten

section
variable {items : List α} {step other : α → Except ε (List β)}

theorem collectEach_cons {item : α} : collectEach (item :: items) step =
    (do let first ← step item; let rest ← collectEach items step; return first ++ rest) := by
  simp only [collectEach, List.mapM_cons, bind_assoc, pure_bind, List.flatten_cons]

theorem collectEach_singleton {item : α} : collectEach [item] step = step item := by
  rw [collectEach_cons]
  cases step item <;> simp [collectEach, Bind.bind, Except.bind, Pure.pure, Except.pure]

theorem collectEach_append {more : List α} : collectEach (items ++ more) step =
    (do let first ← collectEach items step; let rest ← collectEach more step; return first ++ rest) := by
  simp only [collectEach, List.mapM_append, bind_assoc, pure_bind, List.flatten_append]

/-- A list from each item of the lists from each item. -/
theorem collectEach_flatMap {parts : γ → List α} {sources : List γ} :
    collectEach (sources.flatMap parts) step = collectEach sources fun source => collectEach (parts source) step := by
  induction sources with
  | nil => rfl
  | cons source sources ih => rw [List.flatMap_cons, collectEach_append, collectEach_cons, ih]

theorem collectEach_map {source : γ → α} {sources : List γ} :
    collectEach (sources.map source) step = collectEach sources fun item => step (source item) := by
  simp only [collectEach, List.mapM_map, Function.comp_def]

theorem map_collectEach (f : β → γ) : (collectEach items step).map (List.map f) =
    collectEach items fun item => (step item).map (List.map f) := by
  induction items with
  | nil => rfl
  | cons item items ih =>
    rw [collectEach_cons, collectEach_cons, ← ih]
    cases step item <;> cases collectEach items step <;>
      simp [Bind.bind, Except.bind, Except.map, Pure.pure, Except.pure]

theorem collectEach_congr (same : ∀ item ∈ items, step item = other item) :
    collectEach items step = collectEach items other := by
  induction items with
  | nil => rfl
  | cons item items ih =>
    obtain ⟨first, rest⟩ := List.forall_mem_cons.mp same
    rw [collectEach_cons, collectEach_cons, first, ih rest]

theorem collectEach_eq_ok {results : List β} : collectEach items step = .ok results ↔
    (∀ item ∈ items, ∃ found, step item = .ok found) ∧ results = items.flatMap fun item => (step item).toOption.getD [] := by
  induction items generalizing results with
  | nil =>
    change Except.ok [] = _ ↔ _
    simp [eq_comm]
  | cons item items ih =>
    simp only [collectEach_cons, bind_eq_ok, pure_eq_ok, ih, List.forall_mem_cons, List.flatMap_cons]
    constructor
    · rintro ⟨first, here, _, ⟨others, rfl⟩, rfl⟩
      exact ⟨⟨⟨first, here⟩, others⟩, by rw [here]; rfl⟩
    · rintro ⟨⟨⟨first, here⟩, others⟩, rfl⟩
      exact ⟨first, here, _, ⟨others, rfl⟩, by rw [here]; rfl⟩

theorem mem_of_collectEach {results : List β} {result : β} (done : collectEach items step = .ok results) :
    result ∈ results ↔ ∃ item ∈ items, ∃ found, step item = .ok found ∧ result ∈ found := by
  obtain ⟨each, rfl⟩ := collectEach_eq_ok.mp done
  rw [List.mem_flatMap]
  constructor
  · rintro ⟨item, among, member⟩
    obtain ⟨found, here⟩ := each item among
    rw [here] at member
    exact ⟨item, among, found, here, member⟩
  · rintro ⟨item, among, found, here, member⟩
    exact ⟨item, among, by rw [here]; exact member⟩

/-- The results are in order where those of one item are, and those of items one after the other. -/
theorem pairwise_of_collectEach {rel : β → β → Prop} {before : α → α → Prop} {results : List β}
    (done : collectEach items step = .ok results) (sorted : items.Pairwise before)
    (inside : ∀ item ∈ items, ∀ found, step item = .ok found → found.Pairwise rel)
    (across : ∀ one other first second, before one other → step one = .ok first → step other = .ok second →
      ∀ here ∈ first, ∀ there ∈ second, rel here there) : results.Pairwise rel := by
  obtain ⟨each, rfl⟩ := collectEach_eq_ok.mp done
  refine List.pairwise_flatMap.mpr ⟨fun item among => ?_, sorted.imp_of_mem fun {one other} left right earlier => ?_⟩
  · obtain ⟨found, here⟩ := each item among
    rw [here]
    exact inside item among found here
  · obtain ⟨first, here⟩ := each one left
    obtain ⟨second, there⟩ := each other right
    rw [here, there]
    exact across one other first second earlier here there

theorem collectEach_nothing (nothing : ∀ item ∈ items, step item = .ok []) : collectEach items step = .ok [] := by
  refine collectEach_eq_ok.mpr ⟨fun item member => ⟨[], nothing item member⟩, ?_⟩
  refine (List.flatMap_eq_nil_iff.mpr fun item member => ?_).symm
  rw [nothing item member]
  rfl

end

/-! ### Routes -/

/-- A step into a field of a structure, or into one element of it if it is an array. -/
structure Hop where
  place : Nat
  field : Field
  element : Option Nat
  deriving DecidableEq

namespace Hop

variable {hop : Hop}

/-- The field stands at its place in `struct`, and an array has such an element. -/
def Enters (hop : Hop) (struct : Struct) : Prop :=
  struct.fields[hop.place]? = some hop.field ∧ match hop.field.ty.array with
    | none => hop.element = none
    | some size => ∃ index < size.count, hop.element = some index

theorem Enters.mem {struct : Struct} (enters : hop.Enters struct) : hop.field ∈ struct.fields :=
  List.mem_of_getElem? enters.1

/-- Fields come one after the other, and so do the elements of one field. -/
def Precedes (one other : Hop) : Prop :=
  one.place < other.place ∨ one.place = other.place ∧
    ∃ first second, one.element = some first ∧ other.element = some second ∧ first < second

end Hop

/-- How routes are written: what stands before the name of a field, before an index and after it. -/
structure Spelling where
  dot : Char
  opens : Char
  closes : String

namespace Spelling

/-- The names of variables. -/
def underscored : Spelling := ⟨'_', '_', ""⟩

/-- The paths that programs write. -/
def dotted : Spelling := ⟨'.', '[', "]"⟩

def index (spelling : Spelling) : Option Nat → String
  | none => ""
  | some index => String.singleton spelling.opens ++ toString index ++ spelling.closes

def step (spelling : Spelling) (hop : Hop) : String :=
  String.singleton spelling.dot ++ hop.field.name ++ spelling.index hop.element

def write (spelling : Spelling) (hops : List Hop) : String := String.join (hops.map spelling.step)

variable {spelling : Spelling} {place index : Nat} {field : Field}

theorem write_cons (hop : Hop) (hops : List Hop) : spelling.write (hop :: hops) = spelling.step hop ++ spelling.write hops := by
  simp only [write, List.map_cons, String.join_cons]

theorem write_append (front hops : List Hop) :
    spelling.write (front ++ hops) = spelling.write front ++ spelling.write hops := by
  simp only [write, List.map_append, String.join_append]

theorem underscored_none : underscored.step ⟨place, field, none⟩ = "_" ++ field.name := by
  simp only [step, Spelling.index, String.append_empty]
  rfl

theorem underscored_some : underscored.step ⟨place, field, some index⟩ = "_" ++ field.name ++ "_" ++ toString index := by
  simp only [step, Spelling.index, underscored, String.append_empty, String.append_assoc]
  rfl

theorem dotted_none : dotted.step ⟨place, field, none⟩ = "." ++ field.name := by
  simp only [step, Spelling.index, String.append_empty]
  rfl

theorem dotted_some : dotted.step ⟨place, field, some index⟩ = "." ++ field.name ++ "[" ++ toString index ++ "]" := by
  simp only [step, Spelling.index, dotted, String.append_assoc]
  rfl

end Spelling

def Field.hops (field : Field) (place : Nat) : List Hop :=
  match field.ty.array with
  | none => [⟨place, field, none⟩]
  | some size => (List.range size.count).map fun index => ⟨place, field, some index⟩

def Struct.hops (struct : Struct) : List Hop := struct.fields.zipIdx.flatMap fun (field, place) => field.hops place

theorem Field.mem_hops {field : Field} {place : Nat} {hop : Hop} : hop ∈ field.hops place ↔
    hop.place = place ∧ hop.field = field ∧ match field.ty.array with
      | none => hop.element = none
      | some size => ∃ index < size.count, hop.element = some index := by
  obtain ⟨own, declared, element⟩ := hop
  unfold hops
  split
  · simp
  · simp only [List.mem_map, List.mem_range, Hop.mk.injEq]
    constructor
    · rintro ⟨index, inside, rfl, rfl, rfl⟩
      exact ⟨rfl, rfl, index, inside, rfl⟩
    · rintro ⟨rfl, rfl, index, inside, rfl⟩
      exact ⟨index, inside, rfl, rfl, rfl⟩

namespace Struct

variable {struct : Struct} {hop : Hop}

theorem mem_hops : hop ∈ struct.hops ↔ hop.Enters struct := by
  simp only [hops, List.mem_flatMap, Prod.exists, List.mem_zipIdx_iff_getElem?, Field.mem_hops, Hop.Enters]
  constructor
  · rintro ⟨field, place, found, rfl, rfl, element⟩
    exact ⟨found, element⟩
  · rintro ⟨found, element⟩
    exact ⟨hop.field, hop.place, found, rfl, rfl, element⟩

theorem hops_pairwise : struct.hops.Pairwise Hop.Precedes := by
  refine List.pairwise_flatMap.mpr ⟨?_, ?_⟩
  · rintro ⟨field, place⟩ -
    simp only [Field.hops]
    split
    · exact List.pairwise_singleton _ _
    · refine List.pairwise_map.mpr (List.pairwise_lt_range.imp fun before => .inr ⟨rfl, _, _, rfl, rfl, before⟩)
  · have places : (struct.fields.zipIdx.map Prod.snd).Pairwise (· < ·) := by
      rw [List.zipIdx_map_snd]
      exact List.pairwise_lt_range'
    refine (List.pairwise_map.mp places).imp fun before one first other second => .inl ?_
    rw [(Field.mem_hops.mp first).1, (Field.mem_hops.mp second).1]
    exact before

end Struct

structure Route where
  hops : List Hop
  ty : Ty
  deriving DecidableEq

namespace Route

def after (hop : Hop) (route : Route) : Route := { route with hops := hop :: route.hops }

def sampler (name apiName : String) (route : Route) : SamplerField where
  name := name ++ Spelling.underscored.write route.hops
  apiName := apiName ++ Spelling.dotted.write route.hops
  ty := route.ty

theorem sampler_after (name apiName : String) (hop : Hop) (route : Route) :
    (route.after hop).sampler name apiName =
      route.sampler (name ++ Spelling.underscored.step hop) (apiName ++ Spelling.dotted.step hop) := by
  simp only [sampler, after, Spelling.write_cons, String.append_assoc]

end Route

namespace Struct

variable {pool : Pool} {struct inner : Struct} {hop : Hop} {depth : Nat} {name apiName : String}

/-- A route to a sampler, which is no array. -/
inductive Leads (pool : Pool) : Struct → List Hop → Ty → Prop where
  | sampler {struct : Struct} {hop : Hop} {kind : SamplerKind} (enters : hop.Enters struct)
      (shape : hop.field.ty.shape = .sampler kind) : Leads pool struct [hop] hop.field.ty.element
  | nested {struct inner : Struct} {hop : Hop} {ref : SymbolRef} {symbol : Symbol} {hops : List Hop} {ty : Ty}
      (enters : hop.Enters struct) (shape : hop.field.ty.shape = .struct ref) (resolved : ref.resolve pool = .ok symbol)
      (is : symbol.asStruct? = some inner) (rest : Leads pool inner hops ty) : Leads pool struct (hop :: hops) ty

def routesBy (pool : Pool) (inside : Struct → Except Fault (List Route)) (hop : Hop) : Except Fault (List Route) :=
  match hop.field.ty.shape with
  | .sampler _ => .ok [⟨[hop], hop.field.ty.element⟩]
  | .struct ref => do
    match (← ref.resolve pool).asStruct? with
    | some inner => (inside inner).map (List.map (Route.after hop))
    | none => return []
  | _ => .ok []

section
variable {inside : Struct → Except Fault (List Route)}

theorem routesBy_sampler {kind : SamplerKind} (shape : hop.field.ty.shape = .sampler kind) :
    routesBy pool inside hop = .ok [⟨[hop], hop.field.ty.element⟩] := by
  simp only [routesBy, shape]

theorem routesBy_struct {ref : SymbolRef} (shape : hop.field.ty.shape = .struct ref) : routesBy pool inside hop = (do
    match (← ref.resolve pool).asStruct? with
    | some inner => (inside inner).map (List.map (Route.after hop))
    | none => return []) := by
  simp only [routesBy, shape]

theorem routesBy_nested {ref : SymbolRef} {symbol : Symbol} (shape : hop.field.ty.shape = .struct ref)
    (resolved : ref.resolve pool = .ok symbol) (is : symbol.asStruct? = some inner) :
    routesBy pool inside hop = (inside inner).map (List.map (Route.after hop)) := by
  rw [routesBy_struct shape, resolved]
  simp only [Bind.bind, Except.bind, is]

theorem routesBy_other (sampler : ∀ kind, hop.field.ty.shape ≠ .sampler kind)
    (struct : ∀ ref, hop.field.ty.shape ≠ .struct ref) : routesBy pool inside hop = .ok [] := by
  unfold routesBy
  split
  · exact absurd ‹_› (sampler _)
  · exact absurd ‹_› (struct _)
  · rfl

end

def routesWithin (pool : Pool) : (depth : Nat) → Struct → Except Fault (List Route)
  | 0, _ => .error .endless
  | depth + 1, struct => collectEach struct.hops (routesBy pool (routesWithin pool depth))

/-- The names of the elements of a field are those of its hops. -/
theorem flatten_field (field : Field) (place : Nat) (collect : Ty → String → String → Except Fault (List SamplerField)) :
    field.ty.flatten (name ++ "_" ++ field.name) (apiName ++ "." ++ field.name) collect =
      collectEach (field.hops place) fun hop => collect field.ty.element (name ++ Spelling.underscored.step hop)
        (apiName ++ Spelling.dotted.step hop) := by
  cases array : field.ty.array with
  | none =>
    have element : field.ty.element = field.ty := by
      rw [Ty.element, ← array]
    simp only [Ty.flatten, Field.hops, array, collectEach_singleton, element, Spelling.underscored_none, Spelling.dotted_none,
      String.append_assoc]
  | some size =>
    simp only [Ty.flatten, Field.hops, array, collectEach_map, Spelling.underscored_some, Spelling.dotted_some,
      String.append_assoc]
    rfl

/-- What is collected for a field comes from its hops. -/
theorem collectWithin_field (field : Field) (place : Nat)
    (ih : ∀ {struct : Struct} {name apiName : String},
      struct.collectWithin pool depth name apiName =
        (struct.routesWithin pool depth).map (List.map (Route.sampler name apiName))) :
    (match field.ty.shape with
      | .sampler _ => field.ty.flatten (name ++ "_" ++ field.name) (apiName ++ "." ++ field.name) fun ty name apiName =>
        pure [{ name, apiName, ty }]
      | .struct symbol => field.ty.flatten (name ++ "_" ++ field.name) (apiName ++ "." ++ field.name) fun _ name apiName => do
        match (← symbol.resolve pool).asStruct? with
        | some inner => collectWithin pool depth inner name apiName
        | none => pure []
      | _ => pure []) =
    collectEach (field.hops place) fun hop =>
      (routesBy pool (routesWithin pool depth) hop).map (List.map (Route.sampler name apiName)) := by
  have own : ∀ hop ∈ field.hops place, hop.field = field := fun hop member => (Field.mem_hops.mp member).2.1
  split
  · rename_i kind shape
    rw [flatten_field field place]
    refine collectEach_congr fun hop member => ?_
    rw [routesBy_sampler ((congrArg (·.ty.shape) (own hop member)).trans shape), own hop member]
    simp [Except.map, Route.sampler, Spelling.write, Pure.pure, Except.pure]
  · rename_i ref shape
    rw [flatten_field field place]
    refine collectEach_congr fun hop member => ?_
    rw [routesBy_struct ((congrArg (·.ty.shape) (own hop member)).trans shape)]
    cases ref.resolve pool with
    | error fault => rfl
    | ok symbol =>
      simp only [Bind.bind, Except.bind]
      cases symbol.asStruct? with
      | none => rfl
      | some inner =>
        simp only [ih]
        cases inner.routesWithin pool depth <;> simp [Except.map, Function.comp_def, Route.sampler_after]
  · rename_i sampler struct
    refine (collectEach_nothing fun hop member => ?_).symm
    rw [routesBy_other (own hop member ▸ sampler) (own hop member ▸ struct)]
    rfl

theorem collectWithin_eq : struct.collectWithin pool depth name apiName =
    (struct.routesWithin pool depth).map (List.map (Route.sampler name apiName)) := by
  induction depth generalizing struct name apiName with
  | zero => rfl
  | succ depth ih =>
    have places : struct.fields = struct.fields.zipIdx.map Prod.fst := (List.zipIdx_map_fst 0 _).symm
    rw [routesWithin, map_collectEach, hops, collectEach_flatMap]
    refine (congrArg (collectEach · _) places).trans ?_
    rw [collectEach_map]
    exact collectEach_congr fun (field, place) _ => collectWithin_field field place ih

/-! ### What is listed -/

def Contains (pool : Pool) (struct inner : Struct) : Prop := ∃ field ∈ struct.fields, ∃ ref symbol,
  field.ty.shape = .struct ref ∧ ref.resolve pool = .ok symbol ∧ symbol.asStruct? = some inner

def parts (pool : Pool) (struct : Struct) : List Struct := struct.fields.filterMap fun field =>
  match field.ty.shape with
  | .struct ref => (ref.resolve pool).toOption.bind Symbol.asStruct?
  | _ => none

theorem contains_iff : struct.Contains pool inner ↔ inner ∈ struct.parts pool := by
  simp only [Contains, parts, List.mem_filterMap]
  refine exists_congr fun field => and_congr_right fun _ => ?_
  constructor
  · rintro ⟨ref, symbol, shape, resolved, is⟩
    simpa [shape, resolved, Except.toOption] using is
  · intro found
    split at found
    · rename_i ref shape
      cases resolved : ref.resolve pool with
      | error fault => simp [resolved, Except.toOption] at found
      | ok symbol =>
        exact ⟨ref, symbol, shape, resolved, by simpa [resolved, Except.toOption] using found⟩
    · cases found

def Reaches (pool : Pool) : Struct → Struct → Prop := Relation.ReflTransGen (Contains pool)

/-- What is closed under parts has all that is reached. -/
theorem Reaches.mem_of_closed {structs : List Struct} (reaches : struct.Reaches pool inner) (start : struct ∈ structs)
    (closed : ∀ one ∈ structs, ∀ part ∈ one.parts pool, part ∈ structs) : inner ∈ structs := by
  induction reaches with
  | refl => exact start
  | tail _ contains ih => exact closed _ ih _ (contains_iff.mp contains)

def Dangles (pool : Pool) (struct : Struct) : Prop := ∃ inner, struct.Reaches pool inner ∧
  ∃ field ∈ inner.fields, ∃ ref, field.ty.shape = .struct ref ∧ ref.resolve pool = .error .outOfBounds

/-- Arrays are not empty. -/
theorem exists_hop {field : Field} (among : field ∈ struct.fields) : ∃ hop : Hop, hop.Enters struct ∧ hop.field = field := by
  obtain ⟨place, inside, rfl⟩ := List.mem_iff_getElem.mp among
  have found : struct.fields[place]? = some struct.fields[place] := List.getElem?_eq_getElem inside
  cases array : struct.fields[place].ty.array with
  | none => exact ⟨⟨place, struct.fields[place], none⟩, ⟨found, by simp only [array]⟩, rfl⟩
  | some size =>
    refine ⟨⟨place, struct.fields[place], some 0⟩, ⟨found, ?_⟩, rfl⟩
    simp only [array]
    exact ⟨0, size.pos, rfl⟩

section
variable {inside : Struct → Except Fault (List Route)} {found : List Route}

/-- A hop ends at a sampler, goes on in a structure, or leads to no sampler. -/
theorem routesBy_eq_ok (done : routesBy pool inside hop = .ok found) :
    (∃ kind, hop.field.ty.shape = .sampler kind ∧ found = [⟨[hop], hop.field.ty.element⟩]) ∨
    (∃ ref symbol inner routes, hop.field.ty.shape = .struct ref ∧ ref.resolve pool = .ok symbol ∧
      symbol.asStruct? = some inner ∧ inside inner = .ok routes ∧ found = routes.map (Route.after hop)) ∨
    found = [] := by
  cases shape : hop.field.ty.shape with
  | sampler kind =>
    rw [routesBy_sampler shape] at done
    exact .inl ⟨kind, rfl, (Except.ok.inj done).symm⟩
  | struct ref =>
    obtain ⟨symbol, resolved, rest⟩ := bind_eq_ok.mp ((routesBy_struct shape).symm.trans done)
    cases is : symbol.asStruct? with
    | none =>
      rw [is] at rest
      exact .inr (.inr (Except.ok.inj rest).symm)
    | some inner =>
      rw [routesBy_nested shape resolved is] at done
      obtain ⟨routes, listed, rfl⟩ := map_eq_ok.mp done
      exact .inr (.inl ⟨ref, symbol, inner, routes, rfl, resolved, is, listed, rfl⟩)
  | _ =>
    rw [routesBy_other (by simp [shape]) (by simp [shape])] at done
    exact .inr (.inr (Except.ok.inj done).symm)

theorem hops_of_routesBy {route : Route} (done : routesBy pool inside hop = .ok found) (member : route ∈ found) :
    ∃ rest, route.hops = hop :: rest := by
  rcases routesBy_eq_ok done with ⟨_, _, rfl⟩ | ⟨_, _, _, routes, _, _, _, _, rfl⟩ | rfl
  · exact ⟨[], by rw [List.mem_singleton.mp member]⟩
  · obtain ⟨rest, _, rfl⟩ := List.mem_map.mp member
    exact ⟨rest.hops, rfl⟩
  · cases member

end

section
variable {routes : List Route} {route : Route}

theorem routesWithin_leads (done : struct.routesWithin pool depth = .ok routes) :
    route ∈ routes ↔ Leads pool struct route.hops route.ty := by
  induction depth generalizing struct routes route with
  | zero => cases done
  | succ depth ih =>
    rw [mem_of_collectEach done]
    constructor
    · rintro ⟨hop, among, found, here, member⟩
      have enters := mem_hops.mp among
      rcases routesBy_eq_ok here with ⟨kind, shape, rfl⟩ | ⟨_, _, _, list, shape, resolved, is, listed, rfl⟩ | rfl
      · obtain rfl := List.mem_singleton.mp member
        exact .sampler enters shape
      · obtain ⟨rest, listed', rfl⟩ := List.mem_map.mp member
        exact .nested enters shape resolved is ((ih listed).mp listed')
      · cases member
    · intro leads
      obtain ⟨hops, ty⟩ := route
      cases leads with
      | @sampler _ hop kind enters shape =>
        exact ⟨hop, mem_hops.mpr enters, _, routesBy_sampler shape, List.mem_singleton_self _⟩
      | @nested _ inner hop ref symbol hops _ enters shape resolved is rest =>
        obtain ⟨_, here⟩ := (collectEach_eq_ok.mp done).1 hop (mem_hops.mpr enters)
        obtain ⟨list, listed, rfl⟩ := map_eq_ok.mp ((routesBy_nested shape resolved is).symm.trans here)
        exact ⟨hop, mem_hops.mpr enters, _, here, List.mem_map.mpr ⟨⟨hops, ty⟩, (ih listed).mpr rest, rfl⟩⟩

/-- Routes are in the order of their first difference. -/
theorem routesWithin_pairwise (done : struct.routesWithin pool depth = .ok routes) :
    routes.Pairwise fun one other => List.Lex Hop.Precedes one.hops other.hops := by
  induction depth generalizing struct routes with
  | zero => cases done
  | succ depth ih =>
    refine pairwise_of_collectEach done hops_pairwise (fun hop among found here => ?_) ?_
    · rcases routesBy_eq_ok here with ⟨_, _, rfl⟩ | ⟨_, _, _, list, _, _, _, listed, rfl⟩ | rfl
      · exact List.pairwise_singleton _ _
      · exact List.pairwise_map.mpr ((ih listed).imp .cons)
      · exact .nil
    · intro hop other first second before here there one left two right
      obtain ⟨rest, same⟩ := hops_of_routesBy here left
      obtain ⟨more, also⟩ := hops_of_routesBy there right
      rw [same, also]
      exact .rel before

theorem routesWithin_field {field : Field} {ref : SymbolRef} (done : struct.routesWithin pool depth = .ok routes)
    (among : field ∈ struct.fields) (shape : field.ty.shape = .struct ref) : ∃ symbol, ref.resolve pool = .ok symbol ∧
      ∀ inner, symbol.asStruct? = some inner → ∃ depth list, inner.routesWithin pool depth = .ok list := by
  cases depth with
  | zero => cases done
  | succ depth =>
    obtain ⟨hop, enters, rfl⟩ := exists_hop among
    obtain ⟨found, here⟩ := (collectEach_eq_ok.mp done).1 hop (mem_hops.mpr enters)
    obtain ⟨symbol, resolved, _⟩ := bind_eq_ok.mp ((routesBy_struct shape).symm.trans here)
    refine ⟨symbol, resolved, fun inner is => ?_⟩
    obtain ⟨list, listed, _⟩ := map_eq_ok.mp ((routesBy_nested shape resolved is).symm.trans here)
    exact ⟨depth, list, listed⟩

/-- All structures inside are looked through. -/
theorem not_dangles_of_routesWithin (done : struct.routesWithin pool depth = .ok routes) : ¬ struct.Dangles pool := by
  rintro ⟨last, reaches, field, among, ref, shape, missing⟩
  have looked : ∀ inner, struct.Reaches pool inner → ∃ depth list, inner.routesWithin pool depth = .ok list := by
    intro inner reaches
    induction reaches with
    | refl => exact ⟨depth, routes, done⟩
    | tail _ step ih =>
      obtain ⟨_, _, listed⟩ := ih
      obtain ⟨field, among, ref, symbol, shape, resolved, is⟩ := step
      obtain ⟨_, same, inside⟩ := routesWithin_field listed among shape
      cases resolved.symm.trans same
      exact inside _ is
  obtain ⟨_, _, listed⟩ := looked last reaches
  obtain ⟨symbol, resolved, _⟩ := routesWithin_field listed among shape
  cases missing.symm.trans resolved

end

theorem Dangles.of_contains (contains : struct.Contains pool inner) (dangles : inner.Dangles pool) : struct.Dangles pool := by
  obtain ⟨last, reaches, missing⟩ := dangles
  exact ⟨last, .head contains reaches, missing⟩

theorem collectWithin_dangles {cause : Fault} (failed : struct.collectWithin pool depth name apiName = .error cause) :
    cause = .endless ∨ cause = .outOfBounds ∧ struct.Dangles pool := by
  induction depth generalizing struct name apiName with
  | zero => exact .inl (Except.error.inj failed).symm
  | succ depth ih =>
    obtain ⟨field, among, ref, shape, missing | ⟨symbol, inner, _, _, resolved, is, failed⟩⟩ := collectWithin_eq_error failed
    · obtain rfl := SymbolRef.resolve_eq_error missing
      exact .inr ⟨rfl, struct, .refl, field, among, ref, shape, missing⟩
    · refine (ih failed).imp_right fun ⟨bounds, dangles⟩ => ⟨bounds, ?_⟩
      exact .of_contains ⟨field, among, ref, symbol, shape, resolved, is⟩ dangles

/-- Where no structure contains itself, samplers are collected unless a structure is missing. -/
theorem collectSamplers_cases (acyclic : Acyclic pool.Embeds) :
    struct.Dangles pool ∧ (∀ name apiName, struct.collectSamplers pool name apiName = .error .outOfBounds) ∨
      ¬ struct.Dangles pool ∧ ∃ routes, struct.routesWithin pool pool.nesting = .ok routes ∧
        ∀ name apiName, struct.collectSamplers pool name apiName = .ok (routes.map (Route.sampler name apiName)) := by
  have collected (name apiName : String) : struct.collectSamplers pool name apiName =
      (struct.routesWithin pool pool.nesting).map (List.map (Route.sampler name apiName)) := collectWithin_eq
  cases listed : struct.routesWithin pool pool.nesting with
  | ok routes =>
    refine .inr ⟨not_dangles_of_routesWithin listed, routes, rfl, fun name apiName => ?_⟩
    rw [collected, listed]
    rfl
  | error cause =>
    have failed (name apiName : String) : struct.collectSamplers pool name apiName = .error cause := by
      rw [collected, listed]
      rfl
    rcases collectWithin_dangles (failed "" "") with rfl | ⟨rfl, dangles⟩
    · exact absurd (failed "" "") (collectSamplers_ne_endless acyclic)
    · exact .inl ⟨dangles, failed⟩

/-! ### Different routes -/

/-- A structure inside has its routes as ends of routes. -/
theorem Reaches.extend (reaches : struct.Reaches pool inner) :
    ∃ front, ∀ hops ty, Leads pool inner hops ty → Leads pool struct (front ++ hops) ty := by
  induction reaches using Relation.ReflTransGen.head_induction_on with
  | refl => exact ⟨[], fun _ _ leads => leads⟩
  | head step _ ih =>
    obtain ⟨front, extend⟩ := ih
    obtain ⟨field, among, ref, symbol, shape, resolved, is⟩ := step
    obtain ⟨hop, enters, rfl⟩ := exists_hop among
    exact ⟨hop :: front, fun hops ty leads => .nested enters shape resolved is (extend hops ty leads)⟩

theorem Leads.enters {hops : List Hop} {ty : Ty} (leads : Leads pool struct (hop :: hops) ty) : hop.Enters struct := by
  cases leads with
  | sampler enters _ => exact enters
  | nested enters _ _ _ _ => exact enters

theorem Leads.cons {hops : List Hop} {ty : Ty} (leads : Leads pool struct hops ty) : ∃ hop rest, hops = hop :: rest := by
  cases leads with
  | @sampler _ hop _ _ _ => exact ⟨hop, [], rfl⟩
  | @nested _ _ hop _ _ rest _ _ _ _ _ _ => exact ⟨hop, rest, rfl⟩

/-- Two routes part at a structure that they reach together. -/
theorem Leads.part {hops others : List Hop} {ty last : Ty} (one : Leads pool struct hops ty)
    (other : Leads pool struct others last) (apart : hops ≠ others) :
    ∃ inner front first rest second more, struct.Reaches pool inner ∧ hops = front ++ first :: rest ∧
      others = front ++ second :: more ∧ first ≠ second ∧ Leads pool inner (first :: rest) ty ∧
      Leads pool inner (second :: more) last := by
  obtain ⟨second, more, rfl⟩ := other.cons
  induction one generalizing second more with
  | @sampler struct hop kind enters shape =>
    by_cases same : hop = second
    · subst same
      cases other with
      | sampler _ _ => exact absurd rfl apart
      | nested _ again _ _ _ => cases shape.symm.trans again
    · exact ⟨struct, [], hop, [], second, more, .refl, rfl, rfl, same, .sampler enters shape, other⟩
  | @nested struct inner hop ref symbol hops ty enters shape resolved is rest ih =>
    by_cases same : hop = second
    · subst same
      cases other with
      | sampler _ again => cases shape.symm.trans again
      | nested _ again twice also beyond =>
        cases shape.symm.trans again
        cases resolved.symm.trans twice
        cases is.symm.trans also
        obtain ⟨next, others, rfl⟩ := beyond.cons
        obtain ⟨last, front, first, left, second, right, reaches, rfl, there, parts, leads⟩ :=
          ih next others beyond fun equal => apart (congrArg (hop :: ·) equal)
        have contains : struct.Contains pool inner := ⟨hop.field, enters.mem, ref, symbol, shape, resolved, is⟩
        exact ⟨last, hop :: front, first, left, second, right, .head contains reaches, rfl, congrArg (hop :: ·) there,
          parts, leads⟩
    · exact ⟨struct, [], hop, hops, second, more, .refl, rfl, rfl, same, .nested enters shape resolved is rest, other⟩

end Struct

/-- Hops from one structure that differ lead to different fields, or to different elements of one field. -/
theorem Hop.Enters.apart {struct : Struct} {one other : Hop} (enters : one.Enters struct) (again : other.Enters struct)
    (different : one ≠ other) : one.place ≠ other.place ∨ one.field = other.field ∧
      ∃ first second, one.element = some first ∧ other.element = some second ∧ first ≠ second := by
  by_cases place : one.place = other.place
  · right
    obtain ⟨own, field, element⟩ := one
    obtain ⟨_, twin, counterpart⟩ := other
    obtain rfl : own = _ := place
    obtain ⟨found, inside⟩ := enters
    obtain ⟨same, within⟩ := again
    obtain rfl : field = twin := Option.some.inj (found.symm.trans same)
    refine ⟨rfl, ?_⟩
    cases array : field.ty.array with
    | none =>
      simp only [array] at inside within
      exact absurd (by rw [inside, within]) different
    | some size =>
      simp only [array] at inside within
      obtain ⟨first, _, rfl⟩ := inside
      obtain ⟨second, _, rfl⟩ := within
      exact ⟨first, second, rfl, rfl, fun equal => different (by rw [equal])⟩
  · exact .inl place

/-- What stands before the first mark, and what starts with it or is empty. -/
theorem cut_at_mark {α : Type u} {marked : α → Prop} {before front after rest : List α}
    (left : ∀ item ∈ before, ¬ marked item) (right : ∀ item ∈ front, ¬ marked item)
    (starts : ∀ item ∈ after.head?, marked item) (begins : ∀ item ∈ rest.head?, marked item)
    (same : before ++ after = front ++ rest) : before = front ∧ after = rest := by
  induction before generalizing front with
  | nil =>
    cases front with
    | nil => exact ⟨rfl, same⟩
    | cons item front =>
      obtain rfl : after = item :: (front ++ rest) := same
      exact absurd (starts item rfl) (right item List.mem_cons_self)
  | cons item before ih =>
    cases front with
    | nil =>
      obtain rfl : item :: (before ++ after) = rest := same
      exact absurd (begins item rfl) (left item List.mem_cons_self)
    | cons other front =>
      obtain ⟨rfl, tails⟩ := List.cons.inj same
      obtain ⟨rfl, rfl⟩ := ih (fun item member => left item (List.mem_cons_of_mem _ member))
        (fun item member => right item (List.mem_cons_of_mem _ member)) tails
      exact ⟨rfl, rfl⟩

namespace Spelling

variable {spelling : Spelling} {one other hop : Hop} {rest more : List Hop} {first second : Nat}

/-- No digit of an index is taken for a mark. -/
def IsClear (spelling : Spelling) : Prop :=
  spelling.dot.isDigit = false ∧ ∀ char ∈ spelling.closes.toList, char.isDigit = false

theorem underscored_clear : underscored.IsClear := ⟨rfl, by simp [underscored]⟩

theorem dotted_clear : dotted.IsClear := ⟨rfl, by simp [dotted]⟩

def tail (spelling : Spelling) (hop : Hop) (rest : List Hop) : String := spelling.index hop.element ++ spelling.write rest

theorem toList_write_cons (hop : Hop) (rest : List Hop) : (spelling.write (hop :: rest)).toList =
    spelling.dot :: (hop.field.name.toList ++ (spelling.tail hop rest).toList) := by
  simp [write_cons, step, tail]

theorem toList_tail (element : hop.element = some first) : (spelling.tail hop rest).toList =
    spelling.opens :: (Nat.toDigits 10 first ++ (spelling.closes.toList ++ (spelling.write rest).toList)) := by
  simp [tail, Spelling.index, element]

theorem write_marked : ∀ char ∈ (spelling.write rest).toList.head?, char = spelling.dot := by
  cases rest with
  | nil => simp [write]
  | cons hop rest =>
    rw [toList_write_cons]
    rintro _ ⟨⟩
    rfl

theorem tail_marked : ∀ char ∈ (spelling.tail hop rest).toList.head?, char = spelling.dot ∨ char = spelling.opens := by
  cases element : hop.element with
  | none =>
    have tail : spelling.tail hop rest = spelling.write rest := by
      simp [Spelling.tail, Spelling.index, element]
    rw [tail]
    exact fun char starts => .inl (write_marked char starts)
  | some index =>
    rw [toList_tail element]
    rintro _ ⟨⟩
    exact .inr rfl

/-- An index ends where its digits do. -/
theorem element_eq_of_tail (clear : spelling.IsClear) (left : one.element = some first) (right : other.element = some second)
    (same : spelling.tail one rest = spelling.tail other more) : first = second := by
  have digits (number : Nat) : ∀ char ∈ Nat.toDigits 10 number, ¬ char.isDigit = false := fun char member => by
    simp [Nat.isDigit_of_mem_toDigits (by decide) (by decide) member]
  have ends (hops : List Hop) : ∀ char ∈ (spelling.closes.toList ++ (spelling.write hops).toList).head?,
      char.isDigit = false := by
    intro char starts
    cases closes : spelling.closes.toList with
    | nil =>
      rw [closes, List.nil_append] at starts
      rw [write_marked char starts]
      exact clear.1
    | cons close _ =>
      rw [closes] at starts
      obtain rfl : close = char := Option.some.inj starts
      exact clear.2 close (closes ▸ List.mem_cons_self)
  have texts := congrArg String.toList same
  rw [toList_tail left, toList_tail right] at texts
  obtain ⟨numerals, _⟩ := cut_at_mark (digits first) (digits second) (ends rest) (ends more) (List.cons.inj texts).2
  exact toDigits_inj (by decide) (by decide) numerals

end Spelling

/-- Different routes that are written alike part at different fields. -/
theorem Struct.Leads.part_of_write {pool : Pool} {struct : Struct} {hops others : List Hop} {ty last : Ty} {spelling : Spelling}
    (clear : spelling.IsClear) (one : Leads pool struct hops ty) (other : Leads pool struct others last)
    (apart : hops ≠ others) (same : spelling.write hops = spelling.write others) :
    ∃ inner front first rest second more, struct.Reaches pool inner ∧ hops = front ++ first :: rest ∧
      others = front ++ second :: more ∧ first.place ≠ second.place ∧ Leads pool inner (first :: rest) ty ∧
      Leads pool inner (second :: more) last ∧
      first.field.name.toList ++ (spelling.tail first rest).toList =
        second.field.name.toList ++ (spelling.tail second more).toList := by
  obtain ⟨inner, front, first, rest, second, more, reaches, rfl, rfl, different, here, there⟩ := one.part other apart
  have texts : (spelling.write (first :: rest)).toList = (spelling.write (second :: more)).toList := by
    simpa only [Spelling.write_append, String.toList_append, List.append_cancel_left_eq] using congrArg String.toList same
  rw [Spelling.toList_write_cons, Spelling.toList_write_cons] at texts
  have tails := (List.cons.inj texts).2
  refine ⟨inner, front, first, rest, second, more, reaches, rfl, rfl, fun place => ?_, here, there, tails⟩
  obtain elsewhere | ⟨field, i, j, left, right, unequal⟩ := here.enters.apart there.enters different
  · exact elsewhere place
  · rw [field, List.append_cancel_left_eq, String.toList_inj] at tails
    exact unequal (Spelling.element_eq_of_tail clear left right tails)

end ShaderTree
