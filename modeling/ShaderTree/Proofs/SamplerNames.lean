import ShaderTree.Proofs.SamplerPaths

/-! The names of the variables that stand for the samplers of a structure. An underscore separates the steps of a
route, and names of fields have underscores as well: two samplers get one name just if the name of a field goes on
like a route through another field of the structure. -/
namespace ShaderTree

namespace Struct

variable {pool : Pool} {struct inner : Struct} {hops others : List Hop} {ty last : Ty}

/-- A route through one field and a route through another are written alike: the name of the second field is the one
of the first and some text, which is also what the first route goes on with. -/
def Clashes (pool : Pool) (struct : Struct) : Prop := ∃ first rest ty second more last text,
  Leads pool struct (first :: rest) ty ∧ Leads pool struct (second :: more) last ∧
    second.field.name = first.field.name ++ "_" ++ text ∧
    Spelling.underscored.tail first rest = "_" ++ text ++ Spelling.underscored.tail second more

def TellsFields (struct : Struct) : Prop := (struct.fields.map Field.name).Nodup

instance (struct : Struct) : Decidable struct.TellsFields := inferInstanceAs (Decidable (List.Nodup _))

/-- The longer of two names that are continued to one text goes on with an underscore. -/
theorem clashes_of_name {first second : Hop} {rest more : List Hop} {text : List Char} (one : Leads pool struct (first :: rest) ty)
    (other : Leads pool struct (second :: more) last) (names : first.field.name ≠ second.field.name)
    (longer : second.field.name.toList = first.field.name.toList ++ text)
    (tails : (Spelling.underscored.tail first rest).toList = text ++ (Spelling.underscored.tail second more).toList) :
    struct.Clashes pool := by
  cases text with
  | nil => exact absurd (String.toList_inj.mp (longer.trans (List.append_nil _))).symm names
  | cons mark text =>
    have starts := @Spelling.tail_marked .underscored first rest mark (by rw [tails]; rfl)
    obtain rfl : mark = '_' := or_self_iff.mp starts
    refine ⟨first, rest, ty, second, more, last, String.ofList text, one, other, ?_, ?_⟩
    · exact String.toList_inj.mp (by simp [longer])
    · exact String.toList_inj.mp (by simp [tails])

theorem Leads.name_inj (tells : ∀ inner, struct.Reaches pool inner → inner.TellsFields)
    (clear : ∀ inner, struct.Reaches pool inner → ¬ inner.Clashes pool) (one : Leads pool struct hops ty)
    (other : Leads pool struct others last) (same : Spelling.underscored.write hops = Spelling.underscored.write others) :
    hops = others := by
  by_contra apart
  obtain ⟨inner, front, first, rest, second, more, reaches, rfl, rfl, elsewhere, here, there, texts⟩ :=
    one.part_of_write Spelling.underscored_clear other apart same
  have names : first.field.name ≠ second.field.name := fun equal =>
    elsewhere (place_eq_of_name (tells inner reaches) here.enters there.enters equal)
  refine clear inner reaches ?_
  obtain ⟨text, longer, tails⟩ | ⟨text, longer, tails⟩ := List.append_eq_append_iff.mp texts
  · exact clashes_of_name here there names longer tails
  · exact clashes_of_name there here names.symm longer tails

/-- Routes that clash inside of the structure are two routes of one name. -/
theorem Clashes.same_name (clashes : inner.Clashes pool) (reaches : struct.Reaches pool inner) :
    ∃ hops ty others last, Leads pool struct hops ty ∧ Leads pool struct others last ∧ hops ≠ others ∧
      Spelling.underscored.write hops = Spelling.underscored.write others := by
  obtain ⟨first, rest, ty, second, more, last, text, one, other, longer, tails⟩ := clashes
  obtain ⟨front, extend⟩ := reaches.extend
  refine ⟨_, ty, _, last, extend _ _ one, extend _ _ other, fun same => ?_, ?_⟩
  · obtain ⟨rfl, _⟩ := List.cons.inj (List.append_cancel_left same)
    have length := congrArg String.length longer
    have mark : "_".length = 1 := rfl
    simp only [String.length_append] at length
    omega
  · have alike : (Spelling.underscored.write (first :: rest)).toList = (Spelling.underscored.write (second :: more)).toList := by
      rw [Spelling.toList_write_cons, Spelling.toList_write_cons, longer, tails]
      simp
    rw [Spelling.write_append, Spelling.write_append, String.toList_inj.mp alike]

/-- The names of samplers are different just if no structure inside lets two of them clash. -/
theorem sampler_names_nodup_iff {routes : List Route} {depth : Nat} (name apiName : String)
    (tells : ∀ inner, struct.Reaches pool inner → inner.TellsFields)
    (listed : struct.routesWithin pool depth = .ok routes) :
    ((routes.map (Route.sampler name apiName)).map SamplerField.name).Nodup ↔
      ∀ inner, struct.Reaches pool inner → ¬ inner.Clashes pool := by
  rw [List.map_map]
  constructor
  · intro different inner reaches clashes
    obtain ⟨hops, ty, others, last, one, other, apart, same⟩ := clashes.same_name reaches
    have listed_of_leads {hops : List Hop} {ty : Ty} (leads : Leads pool struct hops ty) : ⟨hops, ty⟩ ∈ routes :=
      (routesWithin_leads listed).mpr leads
    have routes := List.inj_on_of_nodup_map different (listed_of_leads one) (listed_of_leads other) (by simp [Route.sampler, same])
    exact apart (congrArg Route.hops routes)
  · intro clear
    refine List.pairwise_map.mpr ((routesWithin_pairwise listed).imp_of_mem fun {one other} left right before same => ?_)
    have alike : Spelling.underscored.write one.hops = Spelling.underscored.write other.hops := by
      simpa [Route.sampler] using same
    rw [Leads.name_inj tells clear ((routesWithin_leads listed).mp left) ((routesWithin_leads listed).mp right) alike]
      at before
    exact not_precedes_self _ before

end Struct

namespace SymbolTable

variable {table after : SymbolTable}

def described? (table : SymbolTable) (handle : SymbolHandle) : Option (String × Origin × SymbolKind) :=
  (table.pool.get? handle).map fun symbol => (symbol.rawName, symbol.origin, symbol.kind)

theorem described?_mono {handle : SymbolHandle} {face : String × Origin × SymbolKind} (extension : table.pool.Extends after.pool)
    (known : table.described? handle = some face) : after.described? handle = some face := by
  obtain ⟨symbol, found, rfl⟩ := Option.map_eq_some_iff.mp known
  rw [described?, extension _ _ found]
  rfl

/-- Internal variables are created whatever their names are. -/
theorem createVariable_internal (table : SymbolTable) (name : String) (ty : Ty) : ∃ handle after,
    table.createVariable name ty .toolInternal = .ok (handle, after) ∧ table.pool.Extends after.pool ∧
      after.described? handle = some (name, .toolInternal, .var { ty }) := by
  let symbol : Symbol := { rawName := name, id := table.supply.take.1, origin := .toolInternal, kind := .var { ty } }
  refine ⟨⟨table.pool.size⟩, { table with pool := (table.pool.append symbol).2, supply := table.supply.take.2 }, ?_, ?_, ?_⟩
  · simp only [createVariable, create, reduceCtorEq, and_false, if_false]
    rfl
  · exact .append _ _
  · simp only [described?, Arena.get?_append_new]
    rfl

/-- One variable is created for each sampler, and remembered with its path. -/
theorem createAll_internal (samplers : List SamplerField) (created : List (SymbolHandle × String)) (table : SymbolTable) :
    ∃ more after, samplers.foldlM (fun (created, table) sampler => do
        let (handle, table) ← table.createVariable sampler.name sampler.ty .toolInternal
        return (created ++ [(handle, sampler.apiName)], table)) (created, table) =
          (.ok (created ++ more, after) : Except Fault (List (SymbolHandle × String) × SymbolTable)) ∧
      table.pool.Extends after.pool ∧ more.map Prod.snd = samplers.map SamplerField.apiName ∧
      more.map (fun entry => after.described? entry.1) =
        samplers.map fun sampler => some (sampler.name, .toolInternal, .var { ty := sampler.ty }) := by
  induction samplers generalizing created table with
  | nil => exact ⟨[], table, by rw [List.append_nil]; rfl, .refl _, rfl, rfl⟩
  | cons sampler samplers ih =>
    obtain ⟨handle, between, creates, extension, first⟩ := table.createVariable_internal sampler.name sampler.ty
    obtain ⟨more, after, creating, extends_, paths, names⟩ := ih (created ++ [(handle, sampler.apiName)]) between
    refine ⟨(handle, sampler.apiName) :: more, after, ?_, extension.trans extends_, ?_, ?_⟩
    · rw [List.foldlM_cons]
      refine bind_eq_ok.mpr ⟨_, bind_eq_ok.mpr ⟨_, creates, rfl⟩, ?_⟩
      rw [creating, List.append_assoc]
      rfl
    · rw [List.map_cons, List.map_cons, paths]
    · rw [List.map_cons, List.map_cons, names, described?_mono extends_ first]

/-- The samplers of a structure become internal variables with the names and types collected for them. Their names
are different just if no structure inside lets two of them clash. -/
theorem createSamplers_nodup_iff {ref : SymbolRef} {symbol : Symbol} {struct : Struct}
    (resolved : table.resolve ref = .ok symbol) (is : symbol.asStruct? = some struct) (acyclic : Acyclic table.pool.Embeds)
    (whole : ¬ struct.Dangles table.pool) (tells : ∀ inner, struct.Reaches table.pool inner → inner.TellsFields)
    (name apiName : String) : ∃ samplers created after,
      struct.collectSamplers table.pool name apiName = .ok samplers ∧
      table.createSamplers ref name apiName = .ok (created, after) ∧
      created.map Prod.snd = samplers.map SamplerField.apiName ∧
      created.map (fun entry => after.described? entry.1) =
        samplers.map (fun sampler => some (sampler.name, .toolInternal, .var { ty := sampler.ty })) ∧
      ((samplers.map SamplerField.name).Nodup ↔
        ∀ inner, struct.Reaches table.pool inner → ¬ inner.Clashes table.pool) := by
  obtain ⟨dangles, _⟩ | ⟨_, routes, listed, collected⟩ := @Struct.collectSamplers_cases table.pool struct acyclic
  · exact absurd dangles whole
  obtain ⟨created, after, creates, _, paths, names⟩ :=
    createAll_internal (routes.map (Route.sampler name apiName)) [] table
  refine ⟨_, created, after, collected name apiName, ?_, paths, names,
    Struct.sampler_names_nodup_iff name apiName tells listed⟩
  refine bind_eq_ok.mpr ⟨symbol, resolved, ?_⟩
  simp only [is]
  exact bind_eq_ok.mpr ⟨_, collected name apiName, creates⟩

end SymbolTable

namespace Struct

def bundle : Struct where
  fields := [{ name := "b", ty := .sampler .sampler2D }]

def pair : Struct where
  fields := [{ name := "a_b", ty := .sampler .sampler2D }, { name := "a", ty := .struct (.pool ⟨0⟩) }]

def pairTable : SymbolTable where
  pool := ⟨#[{ rawName := "Inner", id := ⟨96⟩, origin := .userDefined, kind := .struct bundle },
    { rawName := "S", id := ⟨97⟩, origin := .userDefined, kind := .struct pair }]⟩
  supply := { next := 98 }
  builtIns := {}
  profile := {}

theorem pair_acyclic : Acyclic pairTable.pool.Embeds :=
  (Arena.acyclic_of_isOrdered rfl).anti fun _ _ => Arena.Embeds.nests

theorem pair_whole : ¬ pair.Dangles pairTable.pool :=
  @not_dangles_of_routesWithin _ _ pairTable.pool.nesting _ rfl

theorem pair_tells {inner : Struct} (reaches : pair.Reaches pairTable.pool inner) : inner.TellsFields := by
  have known : inner ∈ [pair, bundle] := reaches.mem_of_closed List.mem_cons_self (by decide)
  simp only [List.mem_cons, List.not_mem_nil, or_false] at known
  rcases known with rfl | rfl <;> decide

end Struct

/-- Both samplers get the name `s_a_b`. -/
theorem SymbolTable.createSamplers_nodup_iff_pair :
    let table := Struct.pairTable
    Acyclic table.pool.Embeds ∧ ¬ Struct.pair.Dangles table.pool ∧
      (∀ inner, Struct.pair.Reaches table.pool inner → inner.TellsFields) ∧
      ∃ created after, table.createSamplers (.pool ⟨1⟩) "s" "u" = .ok (created, after) ∧
        created = [(⟨2⟩, "u.a_b"), (⟨3⟩, "u.a.b")] ∧
        created.map (fun entry => (after.described? entry.1).map Prod.fst) = [some "s_a_b", some "s_a_b"] ∧
        ∃ inner, Struct.pair.Reaches table.pool inner ∧ inner.Clashes table.pool := by
  intro table
  obtain ⟨samplers, created, after, collected, creates, paths, names, distinct⟩ :=
    @createSamplers_nodup_iff table (.pool ⟨1⟩) _ _ rfl rfl Struct.pair_acyclic Struct.pair_whole
      (fun _ => Struct.pair_tells) "s" "u"
  have ran : ∃ after, table.createSamplers (.pool ⟨1⟩) "s" "u" = .ok ([(⟨2⟩, "u.a_b"), (⟨3⟩, "u.a.b")], after) := ⟨_, rfl⟩
  have listed : (Struct.pair.collectSamplers table.pool "s" "u").map (List.map SamplerField.name) =
    .ok ["s_a_b", "s_a_b"] := rfl
  obtain ⟨_, ran⟩ := ran
  cases creates.symm.trans ran
  rw [collected] at listed
  have same : samplers.map SamplerField.name = ["s_a_b", "s_a_b"] := Except.ok.inj listed
  refine ⟨Struct.pair_acyclic, Struct.pair_whole, fun _ => Struct.pair_tells, _, _, ran, rfl, ?_, ?_⟩
  · have heads := congrArg (List.map (Option.map Prod.fst)) names
    have given := congrArg (List.map some) same
    simp only [List.map_map, Function.comp_def, Option.map_some] at heads given
    exact heads.trans given
  · rw [same] at distinct
    simpa using distinct

end ShaderTree
