import BootImage.Proofs.Runs
import Mathlib.Data.List.Perm.Subperm

/-!
# Spare registers in a run

Whatever is called, at most three registers are out, each of them once, and as many as were handed
out and not yet taken back. Session and pool both remember the method being translated, and they
remember the same one. As long as no register is taken back by name, the registers that are held
are those that are out.

* `History.acquired`, `History.released` — how often registers were handed out and taken back.
* `Run.pool` — what the pool of a run is like.
* `Run.held_perm` — what is held in a run where registers are only given back as such.
* `Run.registerDiscipline` — how the calls of a run deal with registers and methods.
-/

namespace BootImage

open Multiboot

/-! ## Counting -/

namespace History

/-- How many calls handed out a register. -/
def acquired : History → Nat
  | [] => 0
  | ⟨.acquire, .ok _⟩ :: history => acquired history + 1
  | _ :: history => acquired history

/-- How many calls took back a register. -/
def released : History → Nat
  | [] => 0
  | ⟨.release _, .ok _⟩ :: history => released history + 1
  | ⟨.releaseRegister _, .ok _⟩ :: history => released history + 1
  | _ :: history => released history

/-- Whether no register was taken back by name. -/
def NoneByName (history : History) : Prop :=
  ∀ e ∈ history, ∀ r, e.call ≠ .releaseRegister r

variable {history : History} {c : Call} {err : AssemblyError}

@[simp] theorem acquired_error : acquired (⟨c, .error err⟩ :: history) = acquired history := by
  cases c <;> rfl

@[simp] theorem released_error : released (⟨c, .error err⟩ :: history) = released history := by
  cases c <;> rfl

end History

/-! ## The pool of a run -/

/-- What the pool of a run is like. -/
structure PoolInvariant (history : History) (s : Session) : Prop where
  /-- No register is out twice. -/
  nodup : s.registers.used.Nodup
  /-- Session and pool remember the same method. -/
  method_eq : s.registers.method = s.method
  /-- The registers that are out were handed out and not taken back. -/
  count : s.registers.used.length + history.released = history.acquired

theorem SpareRegister.not_mem_of_find? {used : List SpareRegister} {spare : SpareRegister}
    (h : all.find? (!used.contains ·) = some spare) : spare ∉ used := by
  simpa using List.find?_some h

variable {history : History} {s : Session} {spare : SpareRegister}

/-- A register that was out and is taken back counts as taken back. -/
theorem PoolInvariant.erase (h : PoolInvariant history s) (hused : spare ∈ s.registers.used)
    {e : Event} (hacquired : History.acquired (e :: history) = history.acquired)
    (hreleased : History.released (e :: history) = history.released + 1) :
    PoolInvariant (e :: history) (s.withUsed (s.registers.used.erase spare)) where
  nodup := h.nodup.erase _
  method_eq := h.method_eq
  count := by
    have hlength := List.length_erase_add_one hused
    have hcount := h.count
    show (s.registers.used.erase spare).length + _ = _
    omega

theorem Run.pool (run : Run history s) : PoolInvariant history s := by
  refine run.invariant ⟨.nil, rfl, rfl⟩ (fun _ _ ih step => ?_) (fun _ _ ih _ => ?_)
  · have ⟨hnodup, hmethod, hcount⟩ := ih
    cases step with
    | acquire h =>
      exact ⟨hnodup.cons (SpareRegister.not_mem_of_find? h), hmethod,
        (Nat.add_right_comm ..).trans (congrArg (· + 1) hcount)⟩
    | release h | releaseRegister h => exact ih.erase h rfl rfl
    | beginMethod | endMethod => exact ⟨hnodup, rfl, hcount⟩
    | _ => exact ⟨hnodup, hmethod, hcount⟩
  · exact ⟨ih.nodup, ih.method_eq, by simpa using ih.count⟩

/-- In such a run the registers that are held are those that are out. -/
theorem Run.held_perm (run : Run history s) :
    history.NoneByName → history.held.Perm s.registers.used := by
  refine run.invariant (fun _ => .nil) (fun _ _ ih step hnone => ?_)
    (fun {_ _ c _} _ hc ih herror hnone => ?_)
  · have ih := ih fun e he => hnone e (.tail _ he)
    cases step with
    | acquire => exact ih.cons _
    | release => exact ih.erase _
    | releaseRegister => exact absurd rfl (hnone _ (.head _) _)
    | _ => exact ih
  · have ih := ih fun e he => hnone e (.tail _ he)
    cases c with
    | release spare =>
      -- What is held is out, so giving it back does not fail.
      have hused := ih.subset (hc spare rfl)
      rw [Session.perform_eq_ok.2 (.release hused)] at herror
      cases herror
    | _ => exact ih

/-! ## Registers and methods -/

theorem PoolInvariant.subperm_all (h : PoolInvariant history s) :
    s.registers.used.Subperm SpareRegister.all :=
  h.nodup.subperm fun spare _ => spare.mem_all

theorem PoolInvariant.find?_eq_none_iff (h : PoolInvariant history s) :
    SpareRegister.all.find? (!s.registers.used.contains ·) = none ↔ s.registers.inUse = 3 := by
  rw [List.find?_eq_none]
  constructor
  · intro hall
    have hle : SpareRegister.all.Subperm s.registers.used :=
      List.Nodup.subperm (by decide) fun spare hmem => by simpa using hall spare hmem
    exact le_antisymm h.subperm_all.length_le hle.length_le
  · intro hfull spare hmem
    have hperm := h.subperm_all.perm_of_length_le hfull.ge
    simpa using hperm.symm.subset hmem

/-- The first free register of the pool, as a register of the machine. -/
theorem RegisterPool.find?_isFree {pool : RegisterPool} :
    [.eax, .ecx, .edx].find? (fun r => pool.isFree r) = some spare.register ↔
      SpareRegister.all.find? (!pool.used.contains ·) = some spare := by
  have hmap : [.eax, .ecx, .edx].find? (fun r => pool.isFree r) =
      (SpareRegister.all.find? (!pool.used.contains ·)).map SpareRegister.register := by
    show (SpareRegister.all.map SpareRegister.register).find? _ = _
    rw [List.find?_map]
    congr 2
    funext spare
    simp [isFree]
  rw [hmap, Option.map_eq_some_iff]
  refine ⟨?_, fun h => ⟨spare, h, rfl⟩⟩
  rintro ⟨spare', h, heq⟩
  rwa [← SpareRegister.register_injective heq]

namespace Session

variable {err : AssemblyError} {program : Program} {config : Config}

theorem perform_acquire_eq_error : s.perform .acquire = .error err ↔
    SpareRegister.all.find? (!s.registers.used.contains ·) = none ∧
      err = .registerExhausted 3 s.registers.method := by
  simp only [perform, bind_eq_error, RegisterPool.acquire_eq_error, pure, Except.pure, reduceCtorEq,
    and_false, exists_false, or_false]

theorem perform_compose_eq_error : s.perform (.compose program config) = .error err ↔
    ∃ method, s.method = some method ∧ s.registers.used ≠ [] ∧
      err = .registersNotReleased method s.registers.inUse := by
  simp only [perform, bind_eq_error, pure, Except.pure, reduceCtorEq,
    and_false, exists_false, or_false]
  unfold Session.compose
  cases s.method with
  | none => simp
  | some method => simp [ite_eq_error, RegisterPool.allFree_iff]

end Session

/-- How a session deals with registers and methods after a run. -/
structure RegisterDiscipline (history : History) (s : Session) : Prop where
  /-- The registers that are out were handed out and not taken back. -/
  inUse_add_released : s.registers.inUse + history.released = history.acquired
  inUse_le : s.registers.inUse ≤ 3
  /-- The first free register is handed out. -/
  acquire_ok : ∀ answer s', Call.acquire.inPlace.run s = .ok answer s' ↔
    ∃ spare, [.eax, .ecx, .edx].find? (fun r => s.registers.isFree r) = some spare.register ∧
      answer = .spare spare ∧ s' = s.withUsed (spare :: s.registers.used)
  /-- There is none exactly if three are out, which the error says of the current method. -/
  acquire_error : ∀ err s', Call.acquire.inPlace.run s = .error err s' ↔
    s.registers.inUse = 3 ∧ err = .registerExhausted 3 s.method ∧ s' = s
  /-- By name, the registers of the pool that are out are taken back. -/
  releaseRegister_ok : ∀ r answer s', (Call.releaseRegister r).inPlace.run s = .ok answer s' ↔
    ∃ spare ∈ s.registers.used, spare.register = r ∧ answer = .done ∧
      s' = s.withUsed (s.registers.used.erase spare)
  /-- A method starts with the registers that are out. -/
  beginMethod_ok : ∀ name, ∃ s', (Call.beginMethod name).inPlace.run s = .ok .done s' ∧
    s'.method = some name ∧ s'.registers.used = s.registers.used
  /-- A method ends exactly if no register is out, and then there is no method. -/
  endMethod_ok : ∀ answer s', Call.endMethod.inPlace.run s = .ok answer s' ↔
    s.registers.inUse = 0 ∧ answer = .done ∧
      s' = { s with method := none, registers := { s.registers with method := none } }
  /-- There is no composition exactly if there is a method and a register is out. -/
  compose_error : ∀ program config err s',
    (Call.compose program config).inPlace.run s = .error err s' ↔
      ∃ method, s.method = some method ∧ 0 < s.registers.inUse ∧
        err = .registersNotReleased method s.registers.inUse ∧ s' = s
  /-- A call that fails changes nothing. -/
  fail : ∀ (c : Call) err s', c.inPlace.run s = .error err s' → s' = s
  /-- If none was taken back by name, the registers that are held are those that are out, and each
  of them can be given back. -/
  held : history.NoneByName → history.held.Nodup ∧
    (∀ spare, spare ∈ history.held ↔ spare ∈ s.registers.used) ∧
    ∀ spare ∈ history.held, ∃ s', (Call.release spare).inPlace.run s = .ok .done s'

/-- **In every run, the registers that are out, the calls and the methods stay in step.** -/
theorem Run.registerDiscipline (run : Run history s) : RegisterDiscipline history s where
  inUse_add_released := run.pool.count
  inUse_le := run.pool.subperm_all.length_le
  acquire_ok answer s' := by
    rw [Call.inPlace_eq_ok, Session.perform_eq_ok]
    constructor
    · rintro ⟨⟩
      exact ⟨_, RegisterPool.find?_isFree.2 ‹_›, rfl, rfl⟩
    · rintro ⟨spare, hfind, rfl, rfl⟩
      exact .acquire (RegisterPool.find?_isFree.1 hfind)
  acquire_error err s' := by
    rw [Call.inPlace_eq_error, Session.perform_acquire_eq_error, run.pool.find?_eq_none_iff,
      run.pool.method_eq, and_assoc]
  releaseRegister_ok r answer s' := by
    rw [Call.inPlace_eq_ok, Session.perform_eq_ok]
    constructor
    · rintro ⟨⟩
      exact ⟨_, ‹_›, rfl, rfl, rfl⟩
    · rintro ⟨spare, hused, rfl, rfl, rfl⟩
      exact .releaseRegister hused
  beginMethod_ok name := ⟨_, rfl, rfl, rfl⟩
  endMethod_ok answer s' := by
    rw [Call.inPlace_eq_ok, Session.perform_eq_ok, RegisterPool.inUse, List.length_eq_zero_iff]
    constructor
    · rintro ⟨⟩
      exact ⟨‹_›, rfl, rfl⟩
    · rintro ⟨hfree, rfl, rfl⟩
      exact .endMethod hfree
  compose_error program config err s' := by
    rw [Call.inPlace_eq_error, Session.perform_compose_eq_error]
    simp only [RegisterPool.inUse, List.length_pos_iff, ← exists_and_right, and_assoc]
  fail c err s' h := (Call.inPlace_eq_error.1 h).2
  -- What is held and what is in use are the same registers in some order.
  held hnone := by
    have hperm := run.held_perm hnone
    refine ⟨hperm.nodup_iff.2 run.pool.nodup, fun _ => hperm.mem_iff, fun spare hheld => ?_⟩
    exact ⟨_, Call.inPlace_eq_ok.2 (Session.perform_eq_ok.2 (.release (hperm.subset hheld)))⟩

/-- A run in which two registers are handed out and the first is given back. -/
theorem Run.registerDiscipline_given_back : ∃ s : Session, s.registers.used = [.ecx] ∧
    RegisterDiscipline [⟨.release .eax, .ok .done⟩, ⟨.acquire, .ok (.spare .ecx)⟩,
      ⟨.acquire, .ok (.spare .eax)⟩, ⟨.beginMethod "main", .ok .done⟩] s := by
  have begun := Run.start.succeed (c := .beginMethod "main") nofun rfl
  have first := begun.succeed (c := .acquire) nofun rfl
  have second := first.succeed (c := .acquire) nofun rfl
  have back := second.succeed (c := .release .eax) (by rintro _ ⟨⟩; decide) rfl
  exact ⟨_, rfl, Run.registerDiscipline back⟩

end BootImage
