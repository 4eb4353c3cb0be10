import Mathlib.Data.List.Chain
import Mathlib.Logic.Relation
import ShaderTree.Proofs.Resolution
import ShaderTree.Symbol.Sampler

/-! How structures and interface blocks nest. Counting scalars and collecting samplers go down from a symbol
to those that its fields refer to, one level at a time. Where no symbol contains itself, every way down leads
through different symbols of the pool, and so the levels that are provided suffice. -/
namespace ShaderTree

def Acyclic {α : Type u} (rel : α → α → Prop) : Prop := ∀ item, ¬ Relation.TransGen rel item item

theorem Acyclic.anti {α : Type u} {first second : α → α → Prop} (acyclic : Acyclic second)
    (weaker : ∀ outer inner, first outer inner → second outer inner) : Acyclic first :=
  fun item cycle => acyclic item (Relation.TransGen.mono weaker item item cycle)

/-- The links of a chain differ where no link leads back to itself. -/
theorem Acyclic.nodup {α : Type u} {rel : α → α → Prop} (acyclic : Acyclic rel) {links : List α} (chain : links.IsChain rel) :
    links.Nodup := by
  have pairs : links.Pairwise (Relation.TransGen rel) :=
    List.isChain_iff_pairwise.mp (chain.imp fun _ _ => .single)
  refine pairs.imp fun {outer inner} leads => ?_
  rintro rfl
  exact acyclic outer leads

theorem acyclic_of_rank {α : Type u} {rel : α → α → Prop} (rank : α → Nat)
    (lower : ∀ outer inner, rel outer inner → rank inner < rank outer) : Acyclic rel := by
  have below : ∀ outer inner, Relation.TransGen rel outer inner → rank inner < rank outer := by
    intro outer inner leads
    induction leads with
    | single step => exact lower _ _ step
    | tail _ step ih => exact (lower _ _ step).trans ih
  exact fun item cycle => Nat.lt_irrefl _ (below item item cycle)

theorem isChain_source {rel : α → α → Prop} {first item : α} {links : List α} (chain : (first :: links).IsChain rel)
    (among : item ∈ (first :: links).dropLast) : ∃ next, rel item next := by
  induction links generalizing first with
  | nil => cases among
  | cons second links ih =>
    obtain ⟨step, chain⟩ := List.isChain_cons_cons.mp chain
    rw [List.dropLast_cons_cons] at among
    rcases List.mem_cons.mp among with rfl | later
    · exact ⟨second, step⟩
    · exact ih chain later

namespace Arena

variable {pool : Pool} {outer inner ref : SymbolRef} {links : List SymbolRef}

/-- A field of the structure or interface block `outer` has a type that refers to `inner`. -/
def Nests (pool : Pool) (outer inner : SymbolRef) : Prop :=
  ∃ symbol, outer.resolve pool = .ok symbol ∧ ∃ field ∈ symbol.fields, field.ty.reference? = some inner

/-- A field of the structure `outer` is a structure `inner`, or an array of them. -/
def Embeds (pool : Pool) (outer inner : SymbolRef) : Prop :=
  ∃ symbol struct, outer.resolve pool = .ok symbol ∧ symbol.asStruct? = some struct ∧
    ∃ field ∈ struct.fields, field.ty.shape = .struct inner

theorem Embeds.nests (embeds : pool.Embeds outer inner) : pool.Nests outer inner := by
  obtain ⟨symbol, struct, resolved, is, field, among, shape⟩ := embeds
  refine ⟨symbol, resolved, field, ?_, by simp only [Ty.reference?, shape]⟩
  unfold Symbol.asStruct? at is
  unfold Symbol.fields
  split at is <;> simp_all

private theorem builtIn_fields : ∀ index : Fin 95,
    (BuiltIn.mk index).symbol.fields.all (·.ty.reference?.isNone) = true := by
  decide +kernel

/-- The fields of built-in structures are numbers, so a symbol that nests another is one of the pool. -/
theorem Nests.inside (nests : pool.Nests outer inner) : ∃ handle, outer = .pool handle ∧ handle.index < pool.size := by
  obtain ⟨symbol, resolved, field, among, refers⟩ := nests
  cases outer with
  | builtIn source =>
    obtain rfl := Except.ok.inj resolved
    have none := List.all_eq_true.mp (builtIn_fields source.index) field among
    rw [refers] at none
    cases none
  | pool handle => exact ⟨handle, rfl, get?_eq_some_lt (read_eq_ok.mp resolved)⟩

def isOrdered (pool : Pool) : Bool := pool.entries.all fun (handle, symbol) => symbol.fields.all fun field =>
  (field.ty.reference?.bind SymbolRef.pool?).all fun inner => inner.index < handle.index

theorem mem_entries {item : Item} {α : Type u} {arena : Arena item α} {handle : Handle item} {value : α}
    (found : arena.get? handle = some value) : (handle, value) ∈ arena.entries := by
  refine List.mem_map.mpr ⟨(value, handle.index), List.mem_zipIdx_iff_getElem?.mpr ?_, rfl⟩
  rw [Array.getElem?_toList]
  exact found

theorem acyclic_of_isOrdered (ordered : pool.isOrdered = true) : Acyclic pool.Nests := by
  refine acyclic_of_rank (fun ref => (ref.pool?.map fun handle => handle.index + 1).getD 0) fun outer inner nests => ?_
  obtain ⟨handle, rfl, _⟩ := nests.inside
  obtain ⟨symbol, resolved, field, among, refers⟩ := nests
  have entry := List.all_eq_true.mp ordered _ (mem_entries (read_eq_ok.mp resolved))
  have older := List.all_eq_true.mp entry field among
  cases inner with
  | builtIn symbol => simp [SymbolRef.pool?]
  | pool inner =>
    simp only [refers, Option.bind_some, SymbolRef.pool?, Option.all_some, decide_eq_true_eq] at older
    simpa [SymbolRef.pool?] using older

/-- No way down is longer than the pool. -/
theorem chain_length_le {rel : SymbolRef → SymbolRef → Prop} (nests : ∀ outer inner, rel outer inner → pool.Nests outer inner)
    (acyclic : Acyclic rel) (chain : (ref :: links).IsChain rel) : links.length ≤ pool.size := by
  have nodup : (ref :: links).dropLast.Nodup := (acyclic.nodup chain).sublist (List.dropLast_sublist _)
  have within : (ref :: links).dropLast ⊆ (List.range pool.size).map fun index => .pool ⟨index⟩ := by
    intro outer among
    obtain ⟨inner, leads⟩ := isChain_source chain among
    obtain ⟨handle, rfl, inside⟩ := (nests outer inner leads).inside
    exact List.mem_map.mpr ⟨handle.index, List.mem_range.mpr inside, rfl⟩
  simpa using (nodup.subperm within).length_le

end Arena

theorem foldlM_eq_error {step : β → α → Except ε β} {items : List α} {start : β} {reason : ε}
    (failed : items.foldlM step start = .error reason) : ∃ item ∈ items, ∃ now, step now item = .error reason := by
  induction items generalizing start with
  | nil => cases failed
  | cons item items ih =>
    rw [List.foldlM_cons] at failed
    rcases bind_eq_error.mp failed with failed | ⟨next, _, failed⟩
    · exact ⟨item, List.mem_cons_self, start, failed⟩
    · obtain ⟨other, among, found⟩ := ih failed
      exact ⟨other, List.mem_cons_of_mem _ among, found⟩

theorem mapM_eq_error {step : α → Except ε β} {items : List α} {reason : ε}
    (failed : items.mapM step = .error reason) : ∃ item ∈ items, step item = .error reason := by
  induction items with
  | nil => cases failed
  | cons item items ih =>
    rw [List.mapM_cons] at failed
    rcases bind_eq_error.mp failed with failed | ⟨_, _, failed⟩
    · exact ⟨item, List.mem_cons_self, failed⟩
    · rcases bind_eq_error.mp failed with failed | ⟨_, _, failed⟩
      · obtain ⟨other, among, found⟩ := ih failed
        exact ⟨other, List.mem_cons_of_mem _ among, found⟩
      · cases failed

namespace Count

variable {a b : Nat} {cause : Fault}

theorem add_eq_error (failed : add a b = .error cause) : cause = .overflow := by
  unfold add at failed
  split at failed <;> cases failed
  rfl

theorem mul_eq_error (failed : mul a b = .error cause) : cause = .overflow := by
  unfold mul at failed
  split at failed <;> cases failed
  rfl

end Count

theorem SymbolRef.resolve_eq_error {pool : Pool} {ref : SymbolRef} {cause : Fault}
    (failed : ref.resolve pool = .error cause) : cause = .outOfBounds := by
  cases ref with
  | builtIn symbol => cases failed
  | pool handle => exact (Arena.read_eq_error.mp failed).1

namespace Ty

variable {pool : Pool} {ty : Ty} {depth : Nat} {cause : Fault}

/-- A count fails where a sum or product is too large or a symbol is missing, or else in a field. -/
theorem countWithin_eq_error (failed : ty.countWithin pool (depth + 1) = .error cause) :
    cause = .overflow ∨ cause = .outOfBounds ∨ ∃ ref symbol, ty.reference? = some ref ∧
      ref.resolve pool = .ok symbol ∧ ∃ field ∈ symbol.fields, field.ty.countWithin pool depth = .error cause := by
  obtain ⟨shape, precision, qualifier, array⟩ := ty
  rw [countWithin] at failed
  cases shape with
  | struct ref | block ref =>
    rcases bind_eq_error.mp failed with missing | ⟨symbol, resolved, failed⟩
    · exact .inr (.inl (SymbolRef.resolve_eq_error missing))
    rcases bind_eq_error.mp failed with failed | ⟨_, _, failed⟩
    · obtain ⟨field, among, total, failed⟩ := foldlM_eq_error failed
      rcases bind_eq_error.mp failed with failed | ⟨_, _, failed⟩
      · exact .inr (.inr ⟨ref, symbol, rfl, resolved, field, among, failed⟩)
      · exact .inl (Count.add_eq_error failed)
    · exact .inl (Count.mul_eq_error failed)
  | _ => exact .inl (Count.mul_eq_error failed)

/-- A count that runs out of levels has gone down by as many. -/
theorem countWithin_endless (failed : ty.countWithin pool (depth + 1) = .error .endless) :
    ∃ ref links, ty.reference? = some ref ∧ links.length = depth ∧ (ref :: links).IsChain pool.Nests := by
  induction depth generalizing ty with
  | zero =>
    rcases countWithin_eq_error failed with overflow | missing | ⟨ref, _, refers, _⟩
    · cases overflow
    · cases missing
    · exact ⟨ref, [], refers, rfl, .singleton ref⟩
  | succ depth ih =>
    rcases countWithin_eq_error failed with overflow | missing | ⟨ref, symbol, refers, resolved, field, among, failed⟩
    · cases overflow
    · cases missing
    · obtain ⟨inner, links, below, length, chain⟩ := ih failed
      refine ⟨ref, inner :: links, refers, by rw [List.length_cons, length], ?_⟩
      exact .cons_cons ⟨symbol, resolved, field, among, below⟩ chain

/-- Where no symbol contains itself, the levels suffice for a count. -/
theorem objectSize_ne_endless (acyclic : Acyclic pool.Nests) : ty.objectSize pool ≠ .error .endless := by
  intro failed
  obtain ⟨ref, links, _, length, chain⟩ := countWithin_endless failed
  have short := Arena.chain_length_le (fun _ _ nests => nests) acyclic chain
  omega

end Ty

theorem Ty.flatten_eq_error {ty : Ty} {name apiName : String} {cause : Fault}
    {collect : Ty → String → String → Except Fault (List SamplerField)}
    (failed : ty.flatten name apiName collect = .error cause) :
    ∃ part name apiName, collect part name apiName = .error cause := by
  unfold flatten at failed
  split at failed
  · exact ⟨ty, name, apiName, failed⟩
  · rcases bind_eq_error.mp failed with failed | ⟨_, _, failed⟩
    · obtain ⟨index, _, failed⟩ := mapM_eq_error failed
      exact ⟨_, _, _, failed⟩
    · cases failed

namespace Struct

variable {pool : Pool} {struct : Struct} {depth : Nat} {cause : Fault} {name apiName : String}

/-- Collecting samplers fails where a structure is missing, or else in a structure inside. -/
theorem collectWithin_eq_error (failed : struct.collectWithin pool (depth + 1) name apiName = .error cause) :
    ∃ field ∈ struct.fields, ∃ ref, field.ty.shape = .struct ref ∧ (ref.resolve pool = .error cause ∨
      ∃ symbol inner name apiName, ref.resolve pool = .ok symbol ∧ symbol.asStruct? = some inner ∧
        inner.collectWithin pool depth name apiName = .error cause) := by
  rcases bind_eq_error.mp failed with failed | ⟨_, _, failed⟩
  · obtain ⟨field, among, failed⟩ := mapM_eq_error failed
    simp only at failed
    split at failed
    · obtain ⟨part, name, apiName, failed⟩ := Ty.flatten_eq_error failed
      cases failed
    · rename_i ref shape
      obtain ⟨part, name, apiName, failed⟩ := Ty.flatten_eq_error failed
      refine ⟨field, among, ref, shape, ?_⟩
      rcases bind_eq_error.mp failed with failed | ⟨symbol, resolved, failed⟩
      · exact .inl failed
      · split at failed
        · rename_i inner is
          exact .inr ⟨symbol, inner, name, apiName, resolved, is, failed⟩
        · cases failed
    · cases failed
  · cases failed

/-- A collection that runs out of levels has gone down by as many. -/
theorem collectWithin_endless (failed : struct.collectWithin pool (depth + 1) name apiName = .error .endless) :
    ∃ field ∈ struct.fields, ∃ ref links, field.ty.shape = .struct ref ∧ links.length = depth ∧
      (ref :: links).IsChain pool.Embeds := by
  induction depth generalizing struct name apiName with
  | zero =>
    obtain ⟨field, among, ref, shape, _⟩ := collectWithin_eq_error failed
    exact ⟨field, among, ref, [], shape, rfl, .singleton ref⟩
  | succ depth ih =>
    obtain ⟨field, among, ref, shape, missing | ⟨symbol, inner, _, _, resolved, is, failed⟩⟩ := collectWithin_eq_error failed
    · cases SymbolRef.resolve_eq_error missing
    · obtain ⟨next, below, deeper, links, refers, length, chain⟩ := ih failed
      refine ⟨field, among, ref, deeper :: links, shape, by rw [List.length_cons, length], ?_⟩
      exact .cons_cons ⟨symbol, inner, resolved, is, next, below, refers⟩ chain

/-- Where no structure contains itself, the levels suffice for collecting samplers. -/
theorem collectSamplers_ne_endless (acyclic : Acyclic pool.Embeds) :
    struct.collectSamplers pool name apiName ≠ .error .endless := by
  intro failed
  obtain ⟨_, _, ref, links, _, length, chain⟩ := collectWithin_endless failed
  have short := Arena.chain_length_le (fun _ _ => Arena.Embeds.nests) acyclic chain
  omega

end Struct

end ShaderTree
