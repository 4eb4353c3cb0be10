import Mathlib.Tactic.Choose

/-! The course that running a piece of a program takes. It continues the events, the effects that
have happened, and comes to a value or leaves the statements around it. A course without events
that looks at none may be taken at any time; one that only looks at them may be taken earlier or
later as long as none comes in between. Parts of a sequence may so be sent in front of all. -/
namespace ShaderTree

/-- How a statement leaves those around it. A loop that goes on for too long is cut off. -/
inductive Exit where
  | breaks
  | continues
  | leaves
  | cut
  deriving DecidableEq, Repr

abbrev Course (ε : Type) := ExceptT Exit (StateM (List ε))

namespace Course

variable {ε σ α β γ : Type} {course : Course ε α} {other : Course ε β} {next : α → Course ε β}

def skip : Course ε Unit := pure ()

def stop (exit : Exit) : Course ε α := throw exit

/-- The turn of a loop: its body and, unless that leaves the loop, what comes next. -/
def turn (body next : Course ε Unit) : Course ε Unit :=
  ExceptT.mk do
    match ← body.run with
    | .ok _ | .error .continues => next.run
    | .error .breaks => return .ok ()
    | .error exit => return .error exit

def gather : List (Course ε α) → Course ε (List α)
  | [] => pure []
  | course :: courses => do
    let value ← course
    let values ← gather courses
    return value :: values

@[simp] theorem gather_nil : gather ([] : List (Course ε α)) = pure [] := rfl

@[simp] theorem gather_cons (course : Course ε α) (courses : List (Course ε α)) :
    gather (course :: courses) = course >>= fun value => gather courses >>= fun values => pure (value :: values) := rfl

theorem gather_pure (values : List α) : gather (values.map fun value => (pure value : Course ε α)) = pure values := by
  induction values with
  | nil => rfl
  | cons value values ih => rw [List.map_cons, gather_cons, ih, pure_bind, pure_bind]

theorem bind_ok {events after : List ε} {value : α} (ends : course.run.run events = (.ok value, after)) :
    (course >>= next).run.run events = (next value).run.run after := by
  rw [ExceptT.run_bind, StateT.run_bind, ends]
  rfl

theorem bind_error {events after : List ε} {exit : Exit} (ends : course.run.run events = (.error exit, after)) :
    (course >>= next).run.run events = (.error exit, after) := by
  rw [ExceptT.run_bind, StateT.run_bind, ends]
  rfl

theorem ext {first second : Course ε α} (same : ∀ events, first.run.run events = second.run.run events) :
    first = second := funext same

def Returns (course : Course ε α) (holds : α → Prop) : Prop :=
  ∀ events after value, course.run.run events = (.ok value, after) → holds value

namespace Returns

variable {holds : α → Prop} {ends : β → Prop}

theorem pure {value : α} (own : holds value) : Returns (Pure.pure value : Course ε α) holds := by
  intro events after result same
  cases same
  exact own

theorem any (course : Course ε α) : Returns course fun _ => True := fun _ _ _ _ => trivial

theorem imp {known : α → Prop} (returns : Returns course holds) (implies : ∀ value, holds value → known value) :
    Returns course known := fun events after value same => implies value (returns events after value same)

theorem bind (returns : Returns course holds) (later : ∀ value, holds value → Returns (next value) ends) :
    Returns (course >>= next) ends := by
  intro events after result same
  rcases first : course.run.run events with ⟨exit | value, between⟩
  · cases (bind_error first).symm.trans same
  · exact later value (returns events between value first) between after result ((bind_ok first).symm.trans same)

theorem bind_congr {first second : α → Course ε β} (returns : Returns course holds)
    (same : ∀ value, holds value → first value = second value) : course >>= first = course >>= second := by
  refine ext fun events => ?_
  rcases ends : course.run.run events with ⟨exit | value, after⟩
  · rw [bind_error ends, bind_error ends]
  · rw [bind_ok ends, bind_ok ends, same value (returns events after value ends)]

end Returns

/-- The course leaves no events and goes on, and it looks at the events only if `reads` is set. -/
def Limited (reads : Bool) (course : Course ε α) : Prop :=
  ∃ value : List ε → α, (∀ events, course.run.run events = (.ok (value events), events)) ∧
    (reads = false → ∀ events others, value events = value others)

namespace Limited

variable {reads : Bool}

theorem pure (value : α) : Limited reads (Pure.pure value : Course ε α) :=
  ⟨fun _ => value, fun _ => rfl, fun _ _ _ => rfl⟩

theorem bind (limited : Limited reads course) (later : ∀ value, Limited reads (next value)) :
    Limited reads (course >>= next) := by
  obtain ⟨value, first, fixed⟩ := limited
  choose result second same using later
  refine ⟨fun events => result (value events) events, fun events => ?_, fun none events others => ?_⟩
  · rw [bind_ok (first events), second]
  · change result (value events) events = result (value others) others
    rw [fixed none events others, same _ none events others]

theorem gather {courses : List (Course ε α)} (limited : ∀ course ∈ courses, Limited reads course) :
    Limited reads (gather courses) := by
  induction courses with
  | nil => exact .pure []
  | cons course courses ih =>
    obtain ⟨own, rest⟩ := List.forall_mem_cons.mp limited
    exact own.bind fun value => (ih rest).bind fun values => .pure _

/-- A course whose value is not needed may be left out. -/
theorem drop (limited : Limited reads course) (other : Course ε β) : (course >>= fun _ => other) = other := by
  obtain ⟨value, first, _⟩ := limited
  exact ext fun events => bind_ok (first events)

theorem eq_pure (limited : Limited false course) : ∃ value, course = Pure.pure value := by
  obtain ⟨value, first, fixed⟩ := limited
  refine ⟨value [], ext fun events => ?_⟩
  rw [first, fixed rfl events []]
  rfl

end Limited

structure Commutes (course : Course ε α) (other : Course ε β) : Prop where
  swap : ∀ {γ : Type} (next : α → β → Course ε γ),
    (course >>= fun first => other >>= fun second => next first second) =
      other >>= fun second => course >>= fun first => next first second

namespace Commutes

theorem symm (commutes : Commutes course other) : Commutes other course :=
  ⟨fun next => (commutes.swap fun first second => next second first).symm⟩

theorem of_constant (constant : Limited false course) : Commutes course other := by
  obtain ⟨value, rfl⟩ := constant.eq_pure
  exact ⟨fun next => by simp only [pure_bind]⟩

theorem of_limited (first : Limited true course) (second : Limited true other) : Commutes course other := by
  obtain ⟨value, own, _⟩ := first
  obtain ⟨result, later, _⟩ := second
  refine ⟨fun next => ext fun events => ?_⟩
  rw [bind_ok (own events), bind_ok (later events), bind_ok (later events), bind_ok (own events)]

theorem bind {next : β → Course ε γ} (first : Commutes course other) (rest : ∀ value, Commutes course (next value)) :
    Commutes course (other >>= next) := by
  refine ⟨fun last => ?_⟩
  simp only [bind_assoc]
  rw [first.swap fun value result => next result >>= fun done => last value done]
  exact bind_congr fun result => (rest result).swap last

end Commutes

/-- A part of a sequence whose first half is to be sent in front of all. It leaves a state to the
second half. -/
structure Halves (ε σ α : Type) where
  sent : σ → Course ε σ
  stay : σ → Course ε α
  whole : Course ε α

namespace Halves

variable {part : Halves ε σ α} {parts : List (Halves ε σ α)}

def sendAll : List (Halves ε σ α) → σ → Course ε σ
  | [], state => pure state
  | part :: parts, state => part.sent state >>= sendAll parts

def Joins (part : Halves ε σ α) : Prop := ∀ state, part.sent state >>= part.stay = part.whole

def Ignores (part other : Halves ε σ α) : Prop :=
  ∀ state, Returns (other.sent state) fun after => part.stay after = part.stay state

def Passes (part other : Halves ε σ α) : Prop := ∀ state after, Commutes (part.stay state) (other.sent after)

theorem ignores_all (ignores : ∀ other ∈ parts, part.Ignores other) (state : σ) :
    Returns (sendAll parts state) fun after => part.stay after = part.stay state := by
  induction parts generalizing state with
  | nil => exact .pure rfl
  | cons other parts ih =>
    obtain ⟨own, rest⟩ := List.forall_mem_cons.mp ignores
    refine (own state).bind fun between same => ?_
    rw [← same]
    exact ih rest between

theorem passes_all (passes : ∀ other ∈ parts, part.Passes other) (state after : σ) :
    Commutes (part.stay state) (sendAll parts after) := by
  induction parts generalizing after with
  | nil => exact (Commutes.of_constant (.pure after)).symm
  | cons other parts ih =>
    obtain ⟨own, rest⟩ := List.forall_mem_cons.mp passes
    exact (own state after).bind fun between => ih rest between

theorem limited_all {reads : Bool} (limited : ∀ part ∈ parts, ∀ state, Limited reads (part.sent state)) (state : σ) :
    Limited reads (sendAll parts state) := by
  induction parts generalizing state with
  | nil => exact .pure state
  | cons part parts ih =>
    obtain ⟨own, rest⟩ := List.forall_mem_cons.mp limited
    exact (own state).bind fun between => ih rest between

/-- The first part comes first, whatever is made of the others then. -/
theorem send_cons (next : α → σ → Course ε β) {rest : α → Course ε β} (joins : part.Joins)
    (ignores : ∀ other ∈ parts, part.Ignores other) (passes : ∀ other ∈ parts, part.Passes other)
    (others : ∀ value state, (sendAll parts state >>= next value) = rest value) (state : σ) :
    (sendAll (part :: parts) state >>= fun after => part.stay after >>= fun value => next value after) =
      part.whole >>= rest := by
  rw [sendAll, bind_assoc, ← joins state, bind_assoc]
  refine bind_congr fun between => ?_
  calc
    _ = sendAll parts between >>= fun after => part.stay between >>= fun value => next value after :=
      (ignores_all ignores between).bind_congr fun after same => by rw [same]
    _ = part.stay between >>= fun value => sendAll parts between >>= fun after => next value after :=
      ((passes_all passes between between).swap fun value after => next value after).symm
    _ = part.stay between >>= rest := bind_congr fun value => others value between

/-- The first halves of all parts may be sent in front where each passes what stays before it. -/
theorem send_gather (joins : ∀ part ∈ parts, part.Joins) (ignores : parts.Pairwise Ignores)
    (passes : parts.Pairwise Passes) (state : σ) :
    (sendAll parts state >>= fun after => gather (parts.map fun part => part.stay after)) =
      gather (parts.map whole) := by
  induction parts generalizing state with
  | nil => exact pure_bind _ _
  | cons part parts ih =>
    obtain ⟨own, later⟩ := List.forall_mem_cons.mp joins
    obtain ⟨apart, ignores⟩ := List.pairwise_cons.mp ignores
    obtain ⟨behind, passes⟩ := List.pairwise_cons.mp passes
    refine send_cons (fun value after => gather (parts.map fun part => part.stay after) >>= fun values =>
      pure (value :: values)) own apart behind (fun value state => ?_) state
    rw [← bind_assoc, ih later ignores passes]

/-- The first parts are not needed, and what is sent in front for them never matters. -/
theorem send_gather_drop (count : Nat) (constant : ∀ part ∈ parts.take count, ∀ state, Limited false (part.sent state))
    (joins : ∀ part ∈ parts.drop count, part.Joins) (ignores : (parts.drop count).Pairwise Ignores)
    (passes : (parts.drop count).Pairwise Passes) (state : σ) :
    (sendAll parts state >>= fun after => gather ((parts.map fun part => part.stay after).drop count)) =
      gather ((parts.map whole).drop count) := by
  induction count generalizing parts state with
  | zero => exact send_gather joins ignores passes state
  | succ count ih =>
    cases parts with
    | nil => exact pure_bind _ _
    | cons part parts =>
      obtain ⟨own, constant⟩ := List.forall_mem_cons.mp constant
      obtain ⟨between, sent⟩ := (own state).eq_pure
      rw [sendAll, sent, pure_bind]
      exact ih constant joins ignores passes between

/-- If what is sent in front never matters, each part is what stays of it. -/
theorem send_constant (next : List (Course ε α) → Course ε β) (joins : ∀ part ∈ parts, part.Joins)
    (ignores : parts.Pairwise Ignores) (constant : ∀ part ∈ parts, ∀ state, Limited false (part.sent state)) (state : σ) :
    (sendAll parts state >>= fun after => next (parts.map fun part => part.stay after)) = next (parts.map whole) := by
  induction parts generalizing next state with
  | nil => exact pure_bind _ _
  | cons part parts ih =>
    obtain ⟨own, later⟩ := List.forall_mem_cons.mp joins
    obtain ⟨apart, ignores⟩ := List.pairwise_cons.mp ignores
    obtain ⟨fixed, constant⟩ := List.forall_mem_cons.mp constant
    obtain ⟨between, sent⟩ := (fixed state).eq_pure
    have stays : part.stay between = part.whole := by rw [← own state, sent, pure_bind]
    rw [sendAll, sent, pure_bind, List.map_cons, ← ih (fun courses => next (part.whole :: courses)) later ignores
      constant between]
    refine (ignores_all apart between).bind_congr fun after same => ?_
    rw [List.map_cons, same, stays]

/-- Of parts whose first halves leave no events one is taken, the first halves of all are sent in front. -/
theorem send_choice {pick : Option Nat} {next : List α → Course ε β} (joins : ∀ part ∈ parts, part.Joins)
    (ignores : parts.Pairwise Ignores) (limited : ∀ part ∈ parts, ∀ state, Limited true (part.sent state)) (state : σ) :
    (sendAll parts state >>= fun after =>
        gather (pick.bind fun index => (parts.map fun part => part.stay after)[index]?).toList >>= next) =
      gather (pick.bind fun index => (parts.map whole)[index]?).toList >>= next := by
  cases pick with
  | none => exact (limited_all limited state).drop (gather [] >>= next)
  | some index =>
    simp only [Option.bind_some]
    induction parts generalizing index state with
    | nil => exact pure_bind _ _
    | cons part parts ih =>
      obtain ⟨own, later⟩ := List.forall_mem_cons.mp joins
      obtain ⟨apart, ignores⟩ := List.pairwise_cons.mp ignores
      obtain ⟨free, limited⟩ := List.forall_mem_cons.mp limited
      rw [sendAll, bind_assoc]
      cases index with
      | zero =>
        simp only [List.map_cons, List.getElem?_cons_zero, Option.toList_some, gather_cons, gather_nil, pure_bind,
          bind_assoc]
        rw [← own state, bind_assoc]
        refine bind_congr fun between => ?_
        calc
          _ = sendAll parts between >>= fun _ => part.stay between >>= fun value => next [value] :=
            (ignores_all apart between).bind_congr fun after same => by rw [same]
          _ = _ := (limited_all limited between).drop _
      | succ index =>
        simp only [List.map_cons, List.getElem?_cons_succ]
        exact (bind_congr fun between => ih later ignores limited between index).trans ((free state).drop _)

end Halves
end Course
end ShaderTree
