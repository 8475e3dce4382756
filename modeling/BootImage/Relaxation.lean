import BootImage.Label.Index

/-!
# Jump shrinking

Jumps start in their near form and are made short where the target is close enough. A pass lays
out the stream, resolves every reference, and collects the jumps whose target seems to be within
reach. It then shortens them all at once or, if that puts some short jump out of reach, one after
the other, keeping each shrink after which every short jump still reaches its target: padding can
hold a target in place while the jump moves. The passes end when one of them shortens nothing.
-/

namespace BootImage

/-- The values of the labels in one entry. -/
structure Resolution where
  /-- The image offset of a branch target, or the address of any other referenced label. -/
  target : Option Int := none
  /-- The address in a memory operand with a label. -/
  symbol : Option Int := none
  deriving DecidableEq

namespace Place

/-- The value of the label that the entry refers to. -/
def resolveReference (p : Place) (index : LabelIndex) (layout : Layout) :
    Except AssemblyError (Option Int) :=
  match p.entry.reference? with
  | none => .ok none
  | some ref => do
    let (_, target) ← layout.locate index ref.label
    match ref.kind with
    | .absolute => pure (some target.address)
    | .relative => pure (some target.offset)

/-- The address in the entry's memory operand, if that has a label. -/
def resolveMemory (p : Place) (index : LabelIndex) (layout : Layout) :
    Except AssemblyError (Option Int) :=
  match p.entry.memoryLabel? with
  | none => .ok none
  | some (label, delta) => do
    let (_, target) ← layout.locate index label
    pure (some (target.address + delta))

/-- The values of the labels in the entry, under the given layout. -/
def resolve (p : Place) (index : LabelIndex) (layout : Layout) :
    Except AssemblyError Resolution := do
  let target ← p.resolveReference index layout
  let symbol ← p.resolveMemory index layout
  pure { target, symbol }

/-- Whether a near jump at the given position may reach its target in short form. The bytes that
the jump itself saves are counted as bringing a later target closer. -/
def isCandidate (p : Place) (position : Nat) (index : LabelIndex) (layout : Layout) : Bool :=
  p.form == .near && p.entry.isShrinkable &&
    match p.entry.reference? with
    | none => false
    | some ref =>
      match layout.locate index ref.label with
      | .error _ => false
      | .ok (targetPosition, target) =>
        let saving := if position < targetPosition then p.size - 2 else 0
        decide (FitsByte ((target.offset : Int) - saving - (p.offset + 2)))

/-- Whether a jump in short form reaches its target; entries in near form always do. -/
def reaches (p : Place) (index : LabelIndex) (layout : Layout) : Except AssemblyError Bool :=
  match p.form, p.entry.reference? with
  | .short, some ref => do
    let (_, target) ← layout.locate index ref.label
    pure (decide (FitsByte ((target.offset : Int) - p.stop)))
  | _, _ => .ok true

end Place

namespace Layout

/-- The values of the labels in every entry. -/
def resolutions (layout : Layout) (index : LabelIndex) : Except AssemblyError (List Resolution) :=
  layout.places.mapM (·.resolve index layout)

/-- The positions, from `position` on, of the jumps among `places` that may become short. -/
def candidatesFrom (layout : Layout) (index : LabelIndex) (position : Nat) :
    List Place → List Nat
  | [] => []
  | p :: places =>
    let rest := candidatesFrom layout index (position + 1) places
    if p.isCandidate position index layout then position :: rest else rest

/-- The positions of the jumps that may become short. -/
def candidates (layout : Layout) (index : LabelIndex) : List Nat :=
  layout.candidatesFrom index 0 layout.places

/-- Whether all of the given entries reach their targets. -/
def allReach (layout : Layout) (index : LabelIndex) : List Place → Except AssemblyError Bool
  | [] => .ok true
  | p :: places => do
    if ← p.reaches index layout then allReach layout index places else pure false

end Layout

/-- Whether every short jump reaches its target in the layout for the given forms. -/
def shortsReach (code : Code) (index : LabelIndex) (forms : List BranchForm) :
    Except AssemblyError Bool := do
  let layout ← Layout.compute code forms
  layout.allReach index layout.places

/-- Shortens the jumps at the given positions one after the other, leaving out each one after
which some short jump would not reach its target. Also gives the number of jumps shortened. -/
def shrinkEach (code : Code) (index : LabelIndex) (forms : List BranchForm) :
    List Nat → Except AssemblyError (List BranchForm × Nat)
  | [] => .ok (forms, 0)
  | position :: positions => do
    let shrunk := forms.set position .short
    if ← shortsReach code index shrunk then
      let (forms, n) ← shrinkEach code index shrunk positions
      pure (forms, n + 1)
    else shrinkEach code index forms positions

/-- Shortens the jumps at the given positions: all of them if every short jump then reaches its
target, and otherwise one after the other. -/
def shrink (code : Code) (index : LabelIndex) (forms : List BranchForm) (positions : List Nat) :
    Except AssemblyError (List BranchForm × Nat) :=
  if positions.isEmpty then .ok (forms, 0)
  else do
    let all := positions.foldl (fun forms position => forms.set position .short) forms
    if ← shortsReach code index all then pure (all, positions.length)
    else shrinkEach code index forms positions

/-- The outcome of jump shrinking. -/
structure Relaxed where
  layout : Layout
  resolutions : List Resolution
  /-- The number of passes, the last of which shortened nothing. -/
  passes : Nat

/-- Runs at most `budget` passes, of which the first has the number `pass`. -/
def relaxFrom (code : Code) (index : LabelIndex) (pass : Nat) (forms : List BranchForm) :
    Nat → Except AssemblyError Relaxed
  | 0 => .error (.relaxationLimit (pass - 1))
  | budget + 1 => do
    let layout ← Layout.compute code forms
    let resolutions ← layout.resolutions index
    let (forms, shrunk) ← shrink code index forms (layout.candidates index)
    if shrunk = 0 then pure { layout, resolutions, passes := pass }
    else relaxFrom code index (pass + 1) forms budget

/-- Shortens jumps until nothing changes. A pass shortens at least one jump or is the last, so
one pass more than there are jumps is enough. -/
def relax (code : Code) (index : LabelIndex) : Except AssemblyError Relaxed :=
  relaxFrom code index 1 (code.map fun _ => .near) ((code.filter Entry.isShrinkable).length + 1)

end BootImage
