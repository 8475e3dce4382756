import BootImage.Proofs.Places

/-!
# What directives have in effect

The origin and the mode at an entry are those that the directives in front of it set last. A mode
directive is itself in the mode that it sets.

* `Code.originAfter`, `Code.modeAfter` — what is in effect behind a stream.
* `origin_eq`, `mode_eq` — what is in effect at an entry of a layout.
-/

namespace BootImage

namespace Code

/-- The origin in effect behind a stream that is read under the given one. -/
def originAfter (code : Code) (origin : UInt32) : UInt32 :=
  code.foldl (fun origin e => e.originAfter origin) origin

/-- The mode in effect behind a stream that is read in the given one. -/
def modeAfter (code : Code) (mode : Mode) : Mode :=
  code.foldl (fun mode e => e.modeAfter mode) mode

@[simp] theorem originAfter_nil (origin : UInt32) : originAfter [] origin = origin := rfl

@[simp] theorem modeAfter_nil (mode : Mode) : modeAfter [] mode = mode := rfl

@[simp] theorem originAfter_cons (e : Entry) (code : Code) (origin : UInt32) :
    originAfter (e :: code) origin = originAfter code (e.originAfter origin) := rfl

@[simp] theorem modeAfter_cons (e : Entry) (code : Code) (mode : Mode) :
    modeAfter (e :: code) mode = modeAfter code (e.modeAfter mode) := rfl

theorem originAfter_append (front back : Code) (origin : UInt32) :
    originAfter (front ++ back) origin = originAfter back (originAfter front origin) :=
  List.foldl_append

theorem modeAfter_append (front back : Code) (mode : Mode) :
    modeAfter (front ++ back) mode = modeAfter back (modeAfter front mode) :=
  List.foldl_append

/-- A stream that sets no origin keeps the one that it is read under. -/
theorem originAfter_eq_self {code : Code} (h : ∀ origin, Entry.org origin ∉ code)
    (origin : UInt32) : originAfter code origin = origin := by
  induction code with
  | nil => rfl
  | cons e code ih =>
    have he : e.originAfter origin = origin := by
      cases e with
      | org o => exact absurd List.mem_cons_self (h o)
      | _ => rfl
    rw [originAfter_cons, he]
    exact ih fun o ho => h o (List.mem_cons_of_mem _ ho)

/-- A stream without a mode directive keeps the mode that it is read in. -/
theorem modeAfter_eq_self {code : Code} (h : ∀ mode, Entry.bits mode ∉ code) (mode : Mode) :
    modeAfter code mode = mode := by
  induction code with
  | nil => rfl
  | cons e code ih =>
    have he : e.modeAfter mode = mode := by
      cases e with
      | bits m => exact absurd List.mem_cons_self (h m)
      | _ => rfl
    rw [modeAfter_cons, he]
    exact ih fun m hm => h m (List.mem_cons_of_mem _ hm)

end Code

namespace Layout

variable {c : Cursor} {code : Code} {forms : List BranchForm} {layout : Layout} {k : Nat}
  {p : Place}

theorem origin_layFrom (h : layFrom c code forms = .ok layout)
    (hp : layout.places[k]? = some p) : p.origin = Code.originAfter (code.take k) c.origin := by
  induction code generalizing c forms layout k with
  | nil => cases h; simp at hp
  | cons e code ih =>
    obtain ⟨size, rest, -, hrest, rfl⟩ := layFrom_cons_eq_ok.1 h
    cases k with
    | zero =>
      cases hp
      rfl
    | succ k => exact ih hrest hp

theorem mode_layFrom (h : layFrom c code forms = .ok layout)
    (hp : layout.places[k]? = some p) : p.mode = Code.modeAfter (code.take (k + 1)) c.mode := by
  induction code generalizing c forms layout k with
  | nil => cases h; simp at hp
  | cons e code ih =>
    obtain ⟨size, rest, -, hrest, rfl⟩ := layFrom_cons_eq_ok.1 h
    cases k with
    | zero =>
      cases hp
      simp
    | succ k => exact ih hrest hp

variable (h : compute code forms = .ok layout) (hp : layout.places[k]? = some p)
include h hp

/-- The origin at an entry is the one set last in front of it. -/
theorem origin_eq : p.origin = Code.originAfter (code.take k) 0 :=
  origin_layFrom h hp

/-- The mode at an entry is the one set last up to it. -/
theorem mode_eq : p.mode = Code.modeAfter (code.take (k + 1)) .initial :=
  mode_layFrom h hp

end Layout

end BootImage
