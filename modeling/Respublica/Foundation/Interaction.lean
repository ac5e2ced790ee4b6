import Respublica.Foundation.Effect

/-!
# Programs that call their surroundings

An `Interaction` is the behaviour of a program against an interface it does not
control: it finishes, faults, or issues one call and continues with the answer.
Every path is finite because the type is inductive; nothing else is assumed of
the program. `interpret` runs it against a handler, and `interpretTraced` also
records which calls were answered how.
-/

namespace Respublica.Foundation

/-- A program over an interface of calls, each with its own type of answer. -/
inductive Interaction (Fault Call : Type) (Response : Call → Type) (Value : Type) : Type where
  | done (value : Value)
  | stop (fault : Fault)
  | call (request : Call) (next : Response request → Interaction Fault Call Response Value)

namespace Interaction

variable {Fault State Call Value Result : Type} {Response : Call → Type}

/-- Continue a program with its result. -/
protected def bind (program : Interaction Fault Call Response Value)
    (continuation : Value → Interaction Fault Call Response Result) :
    Interaction Fault Call Response Result :=
  match program with
  | .done value => continuation value
  | .stop fault => .stop fault
  | .call request next => .call request fun answer => (next answer).bind continuation

instance : Monad (Interaction Fault Call Response) where
  pure := .done
  bind := Interaction.bind

/-- Issue one call and return its answer. -/
def perform (request : Call) : Interaction Fault Call Response (Response request) :=
  .call request .done

/-- One call together with the answer it received. -/
abbrev Event (Response : Call → Type) := (request : Call) × Response request

/-- Run a program, answering its calls with a handler. -/
def interpret (handler : (request : Call) → Effect Fault State (Response request)) :
    Interaction Fault Call Response Value → Effect Fault State Value
  | .done value => pure value
  | .stop fault => Effect.fail fault
  | .call request next => do
      let answer ← handler request
      interpret handler (next answer)

/-- Run a program and record its calls in order. -/
def interpretTraced (handler : (request : Call) → Effect Fault State (Response request)) :
    Interaction Fault Call Response Value → Effect Fault State (List (Event Response) × Value)
  | .done value => pure ([], value)
  | .stop fault => Effect.fail fault
  | .call request next => do
      let answer ← handler request
      let (events, value) ← interpretTraced handler (next answer)
      pure (⟨request, answer⟩ :: events, value)

variable {handler : (request : Call) → Effect Fault State (Response request)}

/-- Every call a program can issue, whatever the answers, is an allowed one. -/
def Issues (allowed : Call → Prop) : Interaction Fault Call Response Value → Prop
  | .done _ => True
  | .stop _ => True
  | .call request next => allowed request ∧ ∀ answer, (next answer).Issues allowed

section Issues

variable {allowed : Call → Prop}

theorem issues_pure (value : Value) :
    (pure value : Interaction Fault Call Response Value).Issues allowed := trivial

theorem issues_stop (fault : Fault) :
    (stop fault : Interaction Fault Call Response Value).Issues allowed := trivial

/-- One request issues what it requests. -/
theorem issues_perform {request : Call} (inside : allowed request) :
    (perform request : Interaction Fault Call Response _).Issues allowed :=
  ⟨inside, fun _ => trivial⟩

variable {program : Interaction Fault Call Response Value} {rel : State → State → Prop}

/-- What goes on issues what both parts issue. -/
theorem issues_bind {continuation : Value → Interaction Fault Call Response Result}
    (first : program.Issues allowed) (second : ∀ value, (continuation value).Issues allowed) :
    (program >>= continuation).Issues allowed := by
  change (program.bind continuation).Issues allowed
  induction program with
  | done value => exact second value
  | stop fault => exact trivial
  | call request next ih => exact ⟨first.1, fun answer => ih answer (first.2 answer)⟩

theorem issues_ite {condition : Prop} [Decidable condition]
    {first second : Interaction Fault Call Response Value} (left : first.Issues allowed)
    (right : second.Issues allowed) : (if condition then first else second).Issues allowed := by
  split
  · exact left
  · exact right

/-- A wider set of requests is issued, too. -/
theorem Issues.mono {wider : Call → Prop} (issues : program.Issues allowed)
    (weaker : ∀ request, allowed request → wider request) :
    program.Issues wider := by
  induction program with
  | done value => exact trivial
  | stop fault => exact trivial
  | call request next ih =>
    exact ⟨weaker request issues.1, fun answer => ih answer (issues.2 answer)⟩

theorem issues_any (program : Interaction Fault Call Response Value) :
    program.Issues fun _ => True := by
  induction program with
  | done value => exact trivial
  | stop fault => exact trivial
  | call request next ih => exact ⟨trivial, ih⟩

/-- A preorder kept by the answers to all calls a program issues is kept by the program.
This is the only induction over programs that the frame arguments need. -/
theorem Issues.interpret_keeps [Std.Refl rel] [IsTrans State rel]
    (issues : program.Issues allowed)
    (answersKeep : ∀ request, allowed request → (handler request).Keeps rel) :
    (interpret handler program).Keeps rel := by
  induction program with
  | done value => exact Effect.keeps_pure value
  | stop fault => exact Effect.keeps_fail fault
  | call request next ih =>
    exact Effect.keeps_bind (answersKeep request issues.1) fun answer => ih answer
      (issues.2 answer)

/-- A call that a program issues for some answers. -/
inductive MayIssue : Interaction Fault Call Response Value → Call → Prop where
  | here {request : Call} {next : Response request → Interaction Fault Call Response Value} :
      MayIssue (.call request next) request
  | later {first request : Call} {next : Response first → Interaction Fault Call Response Value}
      (answer : Response first) : MayIssue (next answer) request →
      MayIssue (.call first next) request

/-- A program issues what it may issue. -/
theorem issues_mayIssue (program : Interaction Fault Call Response Value) :
    program.Issues program.MayIssue := by
  induction program with
  | done value => exact trivial
  | stop fault => exact trivial
  | call request next ih =>
    exact ⟨.here, fun answer => (ih answer).mono fun _ issued => .later answer issued⟩

/-- A call that a program issues before it is done, whatever the answers. -/
def MustIssue (request : Call) : Interaction Fault Call Response Value → Prop
  | .done _ => False
  | .stop _ => True
  | .call first next => first = request ∨ ∀ answer, (next answer).MustIssue request

/-- When a program is done, a call it must issue was answered on the way. -/
theorem MustIssue.answered [Std.Refl rel] [IsTrans State rel] {request : Call}
    (must : program.MustIssue request) (issues : program.Issues allowed)
    (answersKeep : ∀ request, allowed request → (handler request).Keeps rel)
    {before after : State} {value : Value}
    (gave : (interpret handler program).Returns before value after) :
    ∃ asked answer left, rel before asked ∧ (handler request).Returns asked answer left ∧
      rel before left ∧ rel left after := by
  induction program generalizing before with
  | done result => exact must.elim
  | stop fault => exact absurd gave Effect.not_returns_fail
  | call first next ih =>
    obtain ⟨answer, mid, answers, continued⟩ := Effect.returns_bind.mp gave
    have kept := (answersKeep first issues.1).of_returns answers
    rcases must with rfl | later
    · have rest := (issues.2 answer).interpret_keeps answersKeep
      exact ⟨before, answer, mid, Std.Refl.refl _, answers, kept, rest.of_returns continued⟩
    · obtain ⟨asked, given, left, reaches, answered, leaves, ends⟩ :=
        ih answer (later answer) (issues.2 answer) continued
      exact ⟨asked, given, left, IsTrans.trans _ _ _ kept reaches, answered,
        IsTrans.trans _ _ _ kept leaves, ends⟩

end Issues

section Evaluate

variable {View : Type} {answer : (request : Call) → View → Option (Response request × View)}
  {allowed : Call → Prop}

/-- Run a program on a view that answers some of the calls itself. There is no outcome when a
call gets no answer or the program stops. -/
def evaluate (answer : (request : Call) → View → Option (Response request × View)) :
    Interaction Fault Call Response Value → View → Option (Value × View)
  | .done value, view => some (value, view)
  | .stop _, _ => none
  | .call request next, view => do
      let answered ← answer request view
      evaluate answer (next answered.1) answered.2

@[simp] theorem evaluate_pure (value : Value) (view : View) :
    evaluate answer (pure value : Interaction Fault Call Response Value) view =
      some (value, view) := rfl

@[simp] theorem evaluate_stop (fault : Fault) (view : View) :
    evaluate answer (stop fault : Interaction Fault Call Response Value) view = none := rfl

@[simp] theorem evaluate_perform (request : Call) (view : View) :
    evaluate answer (perform request : Interaction Fault Call Response _) view =
      answer request view := by
  rw [perform, evaluate]
  cases answer request view with
  | none => rfl
  | some answered => rfl

/-- Pure evaluation goes on with the view that was reached. -/
@[simp] theorem evaluate_bind (program : Interaction Fault Call Response Value)
    (continuation : Value → Interaction Fault Call Response Result) (view : View) :
    evaluate answer (program >>= continuation) view =
      (evaluate answer program view).bind fun mid =>
        evaluate answer (continuation mid.1) mid.2 := by
  change evaluate answer (program.bind continuation) view = _
  induction program generalizing view with
  | done value => rfl
  | stop fault => rfl
  | call request next ih =>
    simp only [Interaction.bind, evaluate]
    cases answer request view with
    | none => rfl
    | some answered => exact ih answered.1 answered.2

/-- Where states show views, and a handler answers the calls of a program as the views do and
does not return where they give no answer, running the program completes exactly when it
evaluates on the view. -/
theorem Issues.completes_iff {shows : State → View → Prop}
    {program : Interaction Fault Call Response Value} (issues : program.Issues allowed)
    (answered : ∀ request, allowed request → ∀ state view response left, shows state view →
      answer request view = some (response, left) →
        ∃ mid, (handler request).Returns state response mid ∧ shows mid left)
    (refused : ∀ request, allowed request → ∀ state view, shows state view →
      answer request view = none → ¬ (handler request).Completes state)
    {state : State} {view : View} (shown : shows state view) :
    (interpret handler program).Completes state ↔ (evaluate answer program view).isSome := by
  induction program generalizing state view with
  | done value => exact iff_of_true (Effect.completes_pure value) rfl
  | stop fault => exact iff_of_false (Effect.not_completes_fail fault) Bool.false_ne_true
  | call request next ih =>
    cases given : answer request view with
    | none =>
      have stuck := refused request issues.1 state view shown given
      refine iff_of_false (Effect.not_completes_bind stuck) ?_
      simp [evaluate, given]
    | some answers =>
      obtain ⟨mid, gave, shownNext⟩ :=
        answered request issues.1 state view answers.1 answers.2 shown given
      refine (Effect.Returns.completes_bind gave).trans
        ((ih answers.1 (issues.2 answers.1) shownNext).trans ?_)
      simp [evaluate, given]

end Evaluate

variable {rel : State → State → Prop} {program : Interaction Fault Call Response Value}
  {before after : State} {value : Value}

/-- A preorder kept by every answer is kept by every program. -/
theorem interpret_keeps [Std.Refl rel] [IsTrans State rel]
    (answersKeep : ∀ request, (handler request).Keeps rel)
    (program : Interaction Fault Call Response Value) :
    (interpret handler program).Keeps rel :=
  program.issues_any.interpret_keeps fun request _ => answersKeep request

/-- Run from a state, a program issues a call in another state. The calls before it were
answered. -/
inductive CallsAt (handler : (request : Call) → Effect Fault State (Response request)) :
    Interaction Fault Call Response Value → State → Call → State → Prop where
  | here {request : Call} {next : Response request → Interaction Fault Call Response Value}
      {state : State} : CallsAt handler (.call request next) state request state
  | later {first request : Call} {next : Response first → Interaction Fault Call Response Value}
      {state mid found : State} {answer : Response first} :
      (handler first).Returns state answer mid →
        CallsAt handler (next answer) mid request found →
        CallsAt handler (.call first next) state request found

/-- A preorder kept by every answer relates the start of a program to every state in which it
issues a call. -/
theorem CallsAt.related [Std.Refl rel] [IsTrans State rel]
    (answersKeep : ∀ request, (handler request).Keeps rel) {state found : State}
    {request : Call} (calls : CallsAt handler program state request found) :
    rel state found := by
  induction calls with
  | here => exact Std.Refl.refl _
  | later answered _ ih => exact IsTrans.trans _ _ _ ((answersKeep _).of_returns answered) ih

/-- Interpreting a sequence is the sequence of the interpretations. -/
theorem interpret_bind (program : Interaction Fault Call Response Value)
    (continuation : Value → Interaction Fault Call Response Result) :
    interpret handler (program >>= continuation) =
      (interpret handler program >>= fun value => interpret handler (continuation value)) := by
  change interpret handler (program.bind continuation) = _
  induction program with
  | done value => rfl
  | stop fault => rfl
  | call request next ih =>
    funext before
    simp only [Interaction.bind, interpret, Bind.bind]
    cases outcome : handler request before with
    | mk result mid =>
      cases result with
      | error fault => rfl
      | ok answer => exact congrFun (ih answer) mid

theorem interpret_perform (request : Call) :
    interpret handler (perform request) = handler request := by
  funext before
  simp only [perform, interpret, Bind.bind]
  cases outcome : handler request before with
  | mk result mid => cases result <;> rfl

section Ghost

variable {Ghost : Type} {record : (request : Call) → State → State → Ghost → Ghost}

/-- A handler that carries a record of what its answers do to the state. -/
def recording (record : (request : Call) → State → State → Ghost → Ghost)
    (handler : (request : Call) → Effect Fault State (Response request)) (request : Call) :
    Effect Fault (State × Ghost) (Response request) := fun before =>
  let outcome := handler request before.1
  (outcome.1, outcome.2, record request before.1 outcome.2 before.2)

/-- A handler that records returns as before, with the record of the call added. -/
theorem returns_recording {request : Call} {before : State × Ghost} {after : State × Ghost}
    {answer : Response request} :
    (recording record handler request).Returns before answer after ↔
      (handler request).Returns before.1 answer after.1 ∧
        after.2 = record request before.1 after.1 before.2 := by
  rw [Effect.Returns, Effect.Returns, recording]
  constructor
  · intro gave
    obtain ⟨answered, rfl⟩ := Prod.mk.inj gave
    exact ⟨Prod.ext answered rfl, rfl⟩
  · rintro ⟨gave, recorded⟩
    rw [gave]
    exact Prod.ext rfl (Prod.ext rfl recorded.symm)

/-- Carrying a record changes neither the result nor the state reached. -/
theorem returns_interpret_iff_recording (ghost : Ghost)
    {program : Interaction Fault Call Response Value} {before after : State} {value : Value} :
    (interpret handler program).Returns before value after ↔ ∃ left,
      (interpret (recording record handler) program).Returns (before, ghost) value
        (after, left) := by
  induction program generalizing before ghost with
  | done result => simp [interpret]
  | stop fault => simp [interpret]
  | call request next ih =>
    simp only [interpret, Effect.returns_bind, returns_recording]
    constructor
    · rintro ⟨answer, mid, answered, gave⟩
      obtain ⟨left, recorded⟩ := (ih answer (record request before mid ghost)).mp gave
      exact ⟨left, answer, (mid, _), ⟨answered, rfl⟩, recorded⟩
    · rintro ⟨left, answer, ⟨mid, _⟩, ⟨answered, -⟩, recorded⟩
      exact ⟨answer, mid, answered, (ih answer _).mpr ⟨left, recorded⟩⟩

end Ghost

/-- Recording the calls changes neither the result nor the state reached. -/
theorem returns_interpret_iff_traced :
    (interpret handler program).Returns before value after ↔
      ∃ events, (interpretTraced handler program).Returns before (events, value) after := by
  induction program generalizing before with
  | done result => simp [interpret, interpretTraced]
  | stop fault => simp [interpret, interpretTraced]
  | call request next ih =>
    simp only [interpret, interpretTraced, Effect.returns_bind, Effect.returns_pure, ih,
      Prod.exists, Prod.mk.injEq]
    constructor
    · rintro ⟨answer, mid, answered, events, gave⟩
      exact ⟨_, answer, mid, answered, events, value, after, gave, ⟨rfl, rfl⟩, rfl⟩
    · rintro ⟨_, answer, mid, answered, events, result, final, gave, ⟨-, rfl⟩, rfl⟩
      exact ⟨answer, mid, answered, events, gave⟩

/-- The recorded calls are among those a program can issue. -/
theorem Issues.events {allowed : Call → Prop} (issues : program.Issues allowed)
    {events : List (Event Response)}
    (gave : (interpretTraced handler program).Returns before (events, value) after) :
    ∀ event ∈ events, allowed event.1 := by
  induction program generalizing before events with
  | done result => simp_all [interpretTraced]
  | stop fault => simp [interpretTraced] at gave
  | call request next ih =>
    simp only [interpretTraced, Effect.returns_bind, Effect.returns_pure, Prod.exists,
      Prod.mk.injEq] at gave
    obtain ⟨answer, mid, -, later, _, _, rest, ⟨rfl, rfl⟩, rfl⟩ := gave
    intro event mem
    cases List.mem_cons.mp mem with
    | inl here => exact here ▸ issues.1
    | inr behind => exact ih answer (issues.2 answer) rest event behind

/-- A traced program that finishes at once has made no call. -/
@[simp] theorem returns_traced_pure {result : Value} {events : List (Event Response)} :
    (interpretTraced handler (pure value)).Returns before (events, result) after ↔
      events = [] ∧ result = value ∧ after = before := by
  change (pure ([], value) : Effect Fault State _).Returns before (events, result) after ↔ _
  simp [and_assoc]

/-- A single traced call records itself and its answer. -/
@[simp] theorem returns_traced_perform {request : Call} {events : List (Event Response)}
    {answer : Response request} :
    (interpretTraced handler (perform request)).Returns before (events, answer) after ↔
      (handler request).Returns before answer after ∧ events = [⟨request, answer⟩] := by
  simp only [perform, interpretTraced, Effect.returns_bind, Effect.returns_pure, Prod.exists,
    Prod.mk.injEq]
  constructor
  · rintro ⟨_, _, answered, _, _, _, ⟨⟨rfl, rfl⟩, rfl⟩, ⟨rfl, rfl⟩, rfl⟩
    exact ⟨answered, rfl⟩
  · rintro ⟨answered, rfl⟩
    exact ⟨answer, after, answered, [], answer, after, ⟨⟨rfl, rfl⟩, rfl⟩, ⟨rfl, rfl⟩, rfl⟩

/-- The calls of a sequence are the calls of its halves, in order. -/
@[simp] theorem returns_traced_bind {continuation : Value → Interaction Fault Call Response Result}
    {events : List (Event Response)} {result : Result} :
    (interpretTraced handler (program >>= continuation)).Returns before (events, result) after ↔
      ∃ first value mid second,
        (interpretTraced handler program).Returns before (first, value) mid ∧
        (interpretTraced handler (continuation value)).Returns mid (second, result) after ∧
        events = first ++ second := by
  change (interpretTraced handler (program.bind continuation)).Returns _ _ _ ↔ _
  induction program generalizing before after events result with
  | done value =>
    simp only [Interaction.bind, interpretTraced, Effect.returns_pure, Prod.mk.injEq]
    constructor
    · intro gave
      exact ⟨[], value, before, events, ⟨⟨rfl, rfl⟩, rfl⟩, gave, rfl⟩
    · rintro ⟨_, _, _, _, ⟨⟨rfl, rfl⟩, rfl⟩, gave, rfl⟩
      simpa using gave
  | stop fault => simp [Interaction.bind, interpretTraced]
  | call request next ih =>
    simp only [Interaction.bind, interpretTraced, Effect.returns_bind, Effect.returns_pure,
      Prod.exists, Prod.mk.injEq, ih]
    constructor
    · rintro ⟨answer, mid, answered, _, _, _, ⟨first, value, middle, second, left, right, rfl⟩,
        ⟨rfl, rfl⟩, rfl⟩
      exact ⟨_, value, middle, second,
        ⟨answer, mid, answered, first, value, middle, left, ⟨rfl, rfl⟩, rfl⟩, right, rfl⟩
    · rintro ⟨_, _, _, second, ⟨answer, mid, answered, first, value, middle, left, ⟨rfl, rfl⟩,
        rfl⟩, right, rfl⟩
      exact ⟨answer, mid, answered, _, _, _, ⟨first, _, _, second, left, right, rfl⟩,
        ⟨rfl, rfl⟩, rfl⟩

end Interaction

end Respublica.Foundation
