import BootImage.Proofs.Calls
import BootImage.Proofs.Checked

/-!
# Runs of a session

A run is a sequence of calls on a new session, each of which may fail. A spare register is handed
out together with the right to give it back once: `release` can only be called for a register that
is still held, while `releaseRegister` takes back any register that is out, and whoever holds it
then holds it for nothing.

* `Session.Step`, `Session.perform_eq_ok` — what a call that succeeds does.
* `Run` — the sessions that calls lead to, with the history of the calls.
* `Run.invariant` — what a new session has and every call keeps is so in every run.
-/

namespace BootImage

open Multiboot

namespace SpareRegister

theorem mem_all (spare : SpareRegister) : spare ∈ all := by
  cases spare <;> decide

@[simp] theorem ofRegister?_register (spare : SpareRegister) :
    ofRegister? spare.register = some spare := by
  cases spare <;> rfl

theorem register_injective {a b : SpareRegister} (h : a.register = b.register) : a = b := by
  cases a <;> cases b <;> first | rfl | cases h

theorem register_of_ofRegister? {r : Register} {spare : SpareRegister}
    (h : ofRegister? r = some spare) : spare.register = r := by
  simpa using List.find?_some h

end SpareRegister

/-! ## The pool -/

namespace RegisterPool

variable {pool pool' : RegisterPool} {spare : SpareRegister} {r : Register}

theorem allFree_iff : pool.allFree = true ↔ pool.used = [] :=
  List.isEmpty_iff

theorem acquire_eq_ok : pool.acquire = .ok (spare, pool') ↔
    SpareRegister.all.find? (!pool.used.contains ·) = some spare ∧
      pool' = { pool with used := spare :: pool.used } := by
  unfold acquire
  cases SpareRegister.all.find? (!pool.used.contains ·) with
  | none => simp
  | some spare' =>
    simp only [Except.ok.injEq, Prod.mk.injEq, Option.some.injEq]
    constructor <;> rintro ⟨rfl, rfl⟩ <;> exact ⟨rfl, rfl⟩

theorem acquire_eq_error {err : AssemblyError} : pool.acquire = .error err ↔
    SpareRegister.all.find? (!pool.used.contains ·) = none ∧
      err = .registerExhausted 3 pool.method := by
  unfold acquire
  cases SpareRegister.all.find? (!pool.used.contains ·) with
  | none => simp [SpareRegister.all, eq_comm]
  | some spare' => simp

theorem releaseRegister_register : pool.releaseRegister spare.register =
    if spare ∈ pool.used then .ok { pool with used := pool.used.erase spare }
    else .error (.registerAlreadyFree spare.register) := by
  simp [releaseRegister]

theorem releaseRegister_eq_ok : pool.releaseRegister r = .ok pool' ↔
    ∃ spare ∈ pool.used, r = spare.register ∧
      pool' = { pool with used := pool.used.erase spare } := by
  constructor
  · intro h
    cases hr : SpareRegister.ofRegister? r with
    | none => simp [releaseRegister, hr] at h
    | some spare =>
      obtain rfl := SpareRegister.register_of_ofRegister? hr
      obtain ⟨hused, rfl⟩ := ite_eq_ok.1 (releaseRegister_register.symm.trans h)
      exact ⟨spare, hused, rfl, rfl⟩
  · rintro ⟨spare, hused, rfl, rfl⟩
    rw [releaseRegister_register, if_pos hused]

end RegisterPool

/-! ## Steps -/

namespace Session

/-- The session with these registers out. -/
def withUsed (s : Session) (used : List SpareRegister) : Session :=
  s.withRegisters { s.registers with used }

/-- What a call that succeeds gives back and what it leaves behind. -/
inductive Step (s : Session) : Call → Answer → Session → Prop
  | beginMethod (name : String) : Step s (.beginMethod name) .done (s.beginMethod name)
  | endMethod (h : s.registers.used = []) :
      Step s .endMethod .done
        { s with method := none, registers := s.registers.withMethod none }
  | acquire {spare : SpareRegister}
      (h : SpareRegister.all.find? (!s.registers.used.contains ·) = some spare) :
      Step s .acquire (.spare spare) (s.withUsed (spare :: s.registers.used))
  | release {spare : SpareRegister} (h : spare ∈ s.registers.used) :
      Step s (.release spare) .done (s.withUsed (s.registers.used.erase spare))
  | releaseRegister {spare : SpareRegister} (h : spare ∈ s.registers.used) :
      Step s (.releaseRegister spare.register) .done (s.withUsed (s.registers.used.erase spare))
  | internKnown {text label : String} (h : s.texts.lookup text = some label) :
      Step s (.intern text) (.label label) s
  | internNew {text : String} (h : s.texts.lookup text = none) :
      Step s (.intern text) (.label s.resourceLabel.1)
        { s with
          resources := s.resources + 1
          data := s.data ++ [Entry.string s.resourceLabel.1 text]
          texts := (text, s.resourceLabel.1) :: s.texts }
  | resourceLabel :
      Step s .resourceLabel (.label s.resourceLabel.1) { s with resources := s.resources + 1 }
  | compareLabel :
      Step s .compareLabel (.label s.compareLabel.1) { s with compares := s.compares + 1 }
  | appendCode (code : Code) : Step s (.appendCode code) .done (s.appendCode code)
  | appendData (data : Code) : Step s (.appendData data) .done (s.appendData data)
  | registerType (layout : TypeLayout) :
      Step s (.registerType layout) .done (s.registerType layout)
  | compose (program : Program) (config : Config)
      (h : s.method.isSome = true → s.registers.used = []) :
      Step s (.compose program config) .done (compose.composed program config s)

variable {s s' : Session} {c : Call} {answer : Answer} {err : AssemblyError}

theorem endMethod_eq_ok : s.endMethod = .ok s' ↔
    s.registers.used = [] ∧
      s' = { s with method := none, registers := s.registers.withMethod none } := by
  rw [endMethod, ite_eq_ok, RegisterPool.allFree_iff]

/-- Composition is refused only for a register that a method holds. -/
theorem compose_eq_ok {program : Program} {config : Config} : s.compose program config = .ok s' ↔
    (s.method.isSome = true → s.registers.used = []) ∧
      s' = compose.composed program config s := by
  unfold Session.compose
  cases s.method with
  | none => simp [eq_comm]
  | some method => simp [ite_eq_ok, RegisterPool.allFree_iff]

/-- The calls that succeed are the steps. -/
theorem perform_eq_ok : s.perform c = .ok (answer, s') ↔ s.Step c answer s' := by
  constructor
  -- Call by call: what the pool or the composer needs is the condition of the step.
  · intro h
    cases c with
    | beginMethod name =>
      cases h
      exact .beginMethod name
    | endMethod =>
      obtain ⟨ended, hended, h⟩ := bind_eq_ok.1 h
      obtain ⟨hfree, rfl⟩ := endMethod_eq_ok.1 hended
      cases h
      exact .endMethod hfree
    | acquire =>
      obtain ⟨⟨spare, pool⟩, hpool, h⟩ := bind_eq_ok.1 h
      obtain ⟨hfind, rfl⟩ := RegisterPool.acquire_eq_ok.1 hpool
      cases h
      exact .acquire hfind
    | release spare =>
      obtain ⟨pool, hpool, h⟩ := bind_eq_ok.1 h
      obtain ⟨spare', hused, hr, rfl⟩ := RegisterPool.releaseRegister_eq_ok.1 hpool
      cases h
      -- The pool takes registers, and no register has two tokens.
      cases SpareRegister.register_injective hr
      exact .release hused
    | releaseRegister r =>
      obtain ⟨pool, hpool, h⟩ := bind_eq_ok.1 h
      obtain ⟨spare, hused, rfl, rfl⟩ := RegisterPool.releaseRegister_eq_ok.1 hpool
      cases h
      exact .releaseRegister hused
    | intern text =>
      simp only [perform, intern] at h
      split at h <;> cases h
      · exact .internKnown ‹_›
      · exact .internNew ‹_›
    | resourceLabel =>
      cases h
      exact .resourceLabel
    | compareLabel =>
      cases h
      exact .compareLabel
    | appendCode code =>
      cases h
      exact .appendCode code
    | appendData data =>
      cases h
      exact .appendData data
    | registerType layout =>
      cases h
      exact .registerType layout
    | compose program config =>
      obtain ⟨composed, hcomposed, h⟩ := bind_eq_ok.1 h
      obtain ⟨hfree, rfl⟩ := compose_eq_ok.1 hcomposed
      cases h
      exact .compose program config hfree
  · rintro h
    cases h with
    | endMethod h => exact bind_eq_ok.2 ⟨_, endMethod_eq_ok.2 ⟨h, rfl⟩, rfl⟩
    | acquire h => exact bind_eq_ok.2 ⟨_, RegisterPool.acquire_eq_ok.2 ⟨h, rfl⟩, rfl⟩
    | release h | releaseRegister h =>
      exact bind_eq_ok.2 ⟨_, RegisterPool.releaseRegister_eq_ok.2 ⟨_, h, rfl, rfl⟩, rfl⟩
    | internKnown h => simp [perform, intern, h, pure, Except.pure]
    | internNew h => simp [perform, intern, h, pure, Except.pure, resourceLabel]
    | compose program config h =>
      exact bind_eq_ok.2 ⟨_, compose_eq_ok.2 ⟨h, rfl⟩, rfl⟩
    | _ => rfl

end Session

/-! ## Runs -/

/-- A call and what came of it. -/
structure Event where
  call : Call
  outcome : Except AssemblyError Answer

/-- The calls of a run, the last one first. -/
abbrev History := List Event

/-- The registers that were handed out and not given back as such. -/
def History.held : History → List SpareRegister
  | [] => []
  | ⟨.acquire, .ok (.spare spare)⟩ :: history => spare :: held history
  | ⟨.release spare, _⟩ :: history => (held history).erase spare
  | _ :: history => held history

/-- Only what is held can be given back as such. -/
def Call.Admissible (c : Call) (history : History) : Prop :=
  ∀ spare, c = .release spare → spare ∈ history.held

/-- The sessions that calls on a new session lead to. A call that fails leads to whatever it has
left behind. -/
inductive Run : History → Session → Prop
  | start : Run [] {}
  | succeed {history : History} {s s' : Session} {c : Call} {answer : Answer}
      (run : Run history s) (hc : c.Admissible history)
      (h : c.inPlace.run s = .ok answer s') : Run (⟨c, .ok answer⟩ :: history) s'
  | fail {history : History} {s s' : Session} {c : Call} {err : AssemblyError}
      (run : Run history s) (hc : c.Admissible history)
      (h : c.inPlace.run s = .error err s') : Run (⟨c, .error err⟩ :: history) s'

/-- What a new session has and every call keeps is so in every run. -/
@[elab_as_elim]
theorem Run.invariant {P : History → Session → Prop} (start : P [] {})
    (step : ∀ {history s c answer s'}, Run history s → c.Admissible history → P history s →
      s.Step c answer s' → P (⟨c, .ok answer⟩ :: history) s')
    (fail : ∀ {history s c err}, Run history s → c.Admissible history → P history s →
      s.perform c = .error err → P (⟨c, .error err⟩ :: history) s)
    {history : History} {s : Session} (run : Run history s) : P history s := by
  induction run with
  | start => exact start
  | succeed run hc h ih => exact step run hc ih (Session.perform_eq_ok.1 (Call.inPlace_eq_ok.1 h))
  | fail run hc h ih =>
    obtain ⟨herror, rfl⟩ := Call.inPlace_eq_error.1 h
    exact fail run hc ih herror

end BootImage
