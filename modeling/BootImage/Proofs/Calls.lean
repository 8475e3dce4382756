import BootImage.Session

/-!
# Calls that change a session in place

A session is one record, and its calls assign to the fields one after the other. A call that fails
stops where it is, so what it had assigned by then would stay. It assigns nothing: every call
first checks all that it depends on, and a failing call leaves the session as it was.

* `Call.inPlace` — the calls, as computations on a session in place.
* `Session.perform` — the calls, as functions.
* `Call.run_inPlace` — the two agree, and a call that fails changes nothing.
-/

namespace BootImage

open Multiboot

/-- The calls of a session, with their arguments. -/
inductive Call where
  | beginMethod (name : String)
  | endMethod
  | acquire
  /-- Gives back what was handed out. -/
  | release (spare : SpareRegister)
  /-- Gives back a register by name. -/
  | releaseRegister (r : Register)
  | intern (text : String)
  | resourceLabel
  | compareLabel
  | appendCode (code : Code)
  | appendData (data : Code)
  | registerType (layout : TypeLayout)
  | compose (program : Program) (config : Config)
  deriving DecidableEq

/-- What a call that succeeds gives back. -/
inductive Answer where
  | done
  | label (name : String)
  | spare (spare : SpareRegister)
  deriving DecidableEq

/-! ## Calls in place -/

/-- A computation on a session in place: if it fails, the changes that it has made remain. -/
abbrev InPlace := EStateM AssemblyError Session

namespace InPlace

def beginMethod (name : String) : InPlace Unit := do
  modify fun s => { s with registers := s.registers.withMethod (some name) }
  modify fun s => { s with method := some name }

def endMethod : InPlace Unit := do
  let s ← get
  if !s.registers.allFree then
    throw (.registersNotReleased (s.method.getD "") s.registers.inUse)
  modify fun s => { s with method := none }
  modify fun s => { s with registers := s.registers.withMethod none }

def acquire : InPlace SpareRegister := do
  let pool := (← get).registers
  match SpareRegister.all.find? (!pool.used.contains ·) with
  | none => throw (.registerExhausted SpareRegister.all.length pool.method)
  | some spare =>
    modify fun s => { s with registers.used := spare :: s.registers.used }
    pure spare

def releaseRegister (r : Register) : InPlace Unit := do
  match SpareRegister.ofRegister? r with
  | none => throw (.notASpareRegister r)
  | some spare =>
    if !(← get).registers.used.contains spare then
      throw (.registerAlreadyFree r)
    modify fun s => { s with registers.used := s.registers.used.erase spare }

def resourceLabel : InPlace String := do
  let label := Session.resourceStem ++ toString (← get).resources
  modify fun s => { s with resources := s.resources + 1 }
  pure label

def compareLabel : InPlace String := do
  let label := Session.compareStem ++ toString (← get).compares
  modify fun s => { s with compares := s.compares + 1 }
  pure label

def append (code : Code) : InPlace Unit :=
  modify fun s => { s with code := s.code ++ code }

def appendData (data : Code) : InPlace Unit :=
  modify fun s => { s with data := s.data ++ data }

/-- Takes the deferred data out of the session. -/
def takeData : InPlace Code := do
  let data := (← get).data
  modify fun s => { s with data := [] }
  pure data

def intern (text : String) : InPlace String := do
  match (← get).texts.lookup text with
  | some label => pure label
  | none =>
    let label ← resourceLabel
    appendData [Entry.string label text]
    modify fun s => { s with texts := (text, label) :: s.texts }
    pure label

def registerType (layout : TypeLayout) : InPlace Unit :=
  modify fun s => { s with types := layout :: s.types }

/-- A method that is being translated must have given back all spare registers. -/
def checkReleased : InPlace Unit := do
  let s ← get
  if let some method := s.method then
    if !s.registers.allFree then
      throw (.registersNotReleased method s.registers.inUse)

/-- Appends the parts of the image one after the other. -/
def appendImage (program : Program) (config : Config) : InPlace Unit := do
  append (header config)
  append (entryStub config program)
  forM program.methods fun method => append (.label method.name :: method.code)
  append shiftRoutines
  append (staticData program)
  append (← takeData)
  append (tail config)

def compose (program : Program) (config : Config) : InPlace Unit := do
  checkReleased
  appendImage program config

end InPlace

/-- The call as a computation in place. -/
def Call.inPlace : Call → InPlace Answer
  | beginMethod name => do InPlace.beginMethod name; pure .done
  | endMethod => do InPlace.endMethod; pure .done
  | acquire => do pure (.spare (← InPlace.acquire))
  | release spare => do InPlace.releaseRegister spare.register; pure .done
  | releaseRegister r => do InPlace.releaseRegister r; pure .done
  | intern text => do pure (.label (← InPlace.intern text))
  | resourceLabel => do pure (.label (← InPlace.resourceLabel))
  | compareLabel => do pure (.label (← InPlace.compareLabel))
  | appendCode code => do InPlace.append code; pure .done
  | appendData data => do InPlace.appendData data; pure .done
  | registerType layout => do InPlace.registerType layout; pure .done
  | compose program config => do InPlace.compose program config; pure .done

/-! ## Calls as functions -/

namespace Session

/-- The session with another pool. -/
def withRegisters (s : Session) (registers : RegisterPool) : Session :=
  { s with registers }

/-- The call as a function of the session. -/
def perform (s : Session) : Call → Except AssemblyError (Answer × Session)
  | .beginMethod name => pure (.done, s.beginMethod name)
  | .endMethod => do
    let ended ← s.endMethod
    pure (.done, ended)
  | .acquire => do
    let (spare, pool) ← s.registers.acquire
    pure (.spare spare, s.withRegisters pool)
  | .release spare => do
    let pool ← s.registers.release spare
    pure (.done, s.withRegisters pool)
  | .releaseRegister r => do
    let pool ← s.registers.releaseRegister r
    pure (.done, s.withRegisters pool)
  | .intern text => pure ((s.intern text).map .label id)
  | .resourceLabel => pure (s.resourceLabel.map .label id)
  | .compareLabel => pure (s.compareLabel.map .label id)
  | .appendCode code => pure (.done, s.appendCode code)
  | .appendData data => pure (.done, s.appendData data)
  | .registerType layout => pure (.done, s.registerType layout)
  | .compose program config => do
    let composed ← s.compose program config
    pure (.done, composed)

end Session

/-! ## Agreement -/

namespace InPlace

variable {α : Type} {f : Session → Except AssemblyError (α × Session)} {s s' : Session} {a : α}
  {err : AssemblyError}

/-- A function in place, which leaves the session as it was if it fails. -/
def atomically (f : Session → Except AssemblyError (α × Session)) : InPlace α := fun s =>
  match f s with
  | .ok (a, s') => .ok a s'
  | .error err => .error err s

theorem run_atomically (s : Session) : (atomically f).run s =
    match f s with
    | .ok (a, s') => .ok a s'
    | .error err => .error err s := rfl

theorem atomically_eq_ok : (atomically f).run s = .ok a s' ↔ f s = .ok (a, s') := by
  rw [run_atomically]
  split <;> simp [*]

theorem atomically_eq_error :
    (atomically f).run s = .error err s' ↔ f s = .error err ∧ s' = s := by
  rw [run_atomically]
  split <;> simp [*, eq_comm]

theorem run_append (code : Code) (s : Session) :
    (append code).run s = .ok () (s.appendCode code) := rfl

theorem run_takeData (s : Session) : takeData.run s = .ok s.data { s with data := [] } := rfl

/-- Parts that are appended one after the other. -/
theorem run_forM_append (codes : List α) (part : α → Code) (s : Session) :
    (forM codes fun c => append (part c)).run s = .ok () (s.appendCode (codes.flatMap part)) := by
  induction codes generalizing s with
  | nil => simp [Session.appendCode]
  | cons c codes ih =>
    rw [List.forM_cons, EStateM.run_bind, run_append]
    dsimp only
    rw [ih]
    simp [Session.appendCode]

/-- The parts of an image make up the image around the data that was deferred. -/
theorem run_appendImage (program : Program) (config : Config) (s : Session) :
    (appendImage program config).run s = .ok () (Session.compose.composed program config s) := by
  simp only [appendImage, EStateM.run_bind, run_append, run_forM_append, run_takeData]
  simp [Session.compose.composed, Session.appendCode, Multiboot.compose, methodCode]

/-- Registers come back in one way, whether by name or as what was handed out. -/
theorem run_releaseRegister (r : Register) (s : Session) :
    (releaseRegister r).run s = (atomically fun s => do
      let pool ← s.registers.releaseRegister r
      pure ((), s.withRegisters pool)).run s := by
  rw [run_atomically]
  unfold InPlace.releaseRegister RegisterPool.releaseRegister
  cases SpareRegister.ofRegister? r with
  | none => rfl
  | some spare =>
    cases hused : s.registers.used.contains spare <;>
      simp only [EStateM.run_bind, EStateM.run_get, hused] <;> rfl

end InPlace

open InPlace

/-- **A call in place is a function of the session, and changes nothing if it fails.** -/
theorem Call.run_inPlace (c : Call) (s : Session) :
    c.inPlace.run s = (atomically (·.perform c)).run s := by
  rw [run_atomically]
  -- Each call checks first and writes the state last, so there is nothing to undo on an error.
  cases c with
  | endMethod =>
    cases hfree : s.registers.allFree <;>
      simp only [inPlace, InPlace.endMethod, Session.perform, Session.endMethod,
        EStateM.run_bind, EStateM.run_get, hfree] <;> rfl
  | acquire =>
    simp only [inPlace, InPlace.acquire, Session.perform, RegisterPool.acquire,
      EStateM.run_bind, EStateM.run_get]
    cases SpareRegister.all.find? (!s.registers.used.contains ·) <;> rfl
  | release spare =>
    simp only [inPlace, Session.perform, RegisterPool.release,
      EStateM.run_bind, run_releaseRegister, run_atomically]
    cases s.registers.releaseRegister spare.register <;> rfl
  | releaseRegister r =>
    simp only [inPlace, Session.perform,
      EStateM.run_bind, run_releaseRegister, run_atomically]
    cases s.registers.releaseRegister r <;> rfl
  | intern text =>
    simp only [inPlace, InPlace.intern, Session.perform, Session.intern,
      EStateM.run_bind, EStateM.run_get]
    cases s.texts.lookup text <;> rfl
  | compose program config =>
    simp only [inPlace, InPlace.compose, checkReleased, Session.perform, Session.compose,
      EStateM.run_bind, EStateM.run_get]
    cases s.method with
    | none =>
      simp only [EStateM.run_pure, run_appendImage]
      rfl
    | some method =>
      cases s.registers.allFree with
      | false => rfl
      | true =>
        simp only [Bool.not_true, Bool.false_eq_true, if_false, EStateM.run_pure, run_appendImage]
        rfl
  | _ => rfl

namespace Call

variable {c : Call} {s s' : Session} {answer : Answer} {err : AssemblyError}

theorem inPlace_eq_ok : c.inPlace.run s = .ok answer s' ↔ s.perform c = .ok (answer, s') := by
  rw [run_inPlace, atomically_eq_ok]

theorem inPlace_eq_error :
    c.inPlace.run s = .error err s' ↔ s.perform c = .error err ∧ s' = s := by
  rw [run_inPlace, atomically_eq_error]

end Call

end BootImage
