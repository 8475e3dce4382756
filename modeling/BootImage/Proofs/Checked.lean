import Mathlib.Data.List.Forall2
import Mathlib.Tactic.Linarith
import Mathlib.Tactic.Positivity

/-!
# Checked computations

Steps that give a value or an error are put one after the other, and run for every element of a
list. The lemmas say what it means that such a computation succeeds, and which step an error
comes from.

* `bind_eq_ok`, `bind_eq_error` — a sequence of two steps succeeds when both do.
* `mapM_eq_ok_iff` — a traversal succeeds when the step does on every element.
* `error_of_mapM` — the error of a traversal is that of one element.
* `rel_getElem?`, `forall₂_map_eq_iff` — lists that agree element by element.
* `Alike` — two computations end alike, in values or in errors that belong together.
* `Alike.bind`, `Alike.mapM` — so do computations that are made of such.
-/

namespace BootImage

variable {ε α β : Type}

theorem bind_eq_ok {x : Except ε α} {f : α → Except ε β} {b : β} :
    (x >>= f) = .ok b ↔ ∃ a, x = .ok a ∧ f a = .ok b := by
  cases x <;> simp [bind, Except.bind]

theorem bind_eq_error {x : Except ε α} {f : α → Except ε β} {err : ε} :
    (x >>= f) = .error err ↔ x = .error err ∨ ∃ a, x = .ok a ∧ f a = .error err := by
  cases x <;> simp [bind, Except.bind]

@[simp] theorem ok_bind (a : α) (f : α → Except ε β) : (Except.ok a >>= f) = f a := rfl

@[simp] theorem error_bind (err : ε) (f : α → Except ε β) :
    ((Except.error err : Except ε α) >>= f) = .error err := rfl

theorem ite_eq_ok {p : Prop} [Decidable p] {a b : α} {err : ε} :
    (if p then .ok a else .error err : Except ε α) = .ok b ↔ p ∧ b = a := by
  by_cases h : p <;> simp [h, eq_comm]

theorem ite_eq_error {p : Prop} [Decidable p] {a : α} {err err' : ε} :
    (if p then .ok a else .error err : Except ε α) = .error err' ↔ ¬p ∧ err' = err := by
  by_cases h : p <;> simp [h, eq_comm]

/-- A test that the value of a computation passes shows that there is a value. -/
theorem exists_ok_of_any {x : Except ε α} {test : α → Bool} (h : x.toOption.any test = true) :
    ∃ a, x = .ok a ∧ test a = true := by
  cases x with
  | error err => cases h
  | ok a => exact ⟨a, rfl, h⟩

/-! ## Traversals -/

theorem mapM_eq_ok_iff {f : α → Except ε β} {xs : List α} {ys : List β} :
    xs.mapM f = .ok ys ↔ List.Forall₂ (fun x y => f x = .ok y) xs ys := by
  induction xs generalizing ys with
  | nil => cases ys <;> simp [pure, Except.pure]
  | cons x xs ih =>
    rw [List.mapM_cons, List.forall₂_cons_left_iff]
    simp only [bind_eq_ok, ih]
    constructor
    · rintro ⟨y, hy, zs, hzs, hok⟩
      cases hok
      exact ⟨y, zs, hy, hzs, rfl⟩
    · rintro ⟨y, zs, hy, hzs, rfl⟩
      exact ⟨y, hy, zs, hzs, rfl⟩

theorem exists_mapM_eq_ok_iff {f : α → Except ε β} {xs : List α} :
    (∃ ys, xs.mapM f = .ok ys) ↔ ∀ x ∈ xs, ∃ y, f x = .ok y := by
  induction xs with
  | nil => simp [pure, Except.pure]
  | cons x xs ih =>
    rw [List.forall_mem_cons, ← ih, List.mapM_cons]
    constructor
    · rintro ⟨ys, hys⟩
      obtain ⟨y, hy, hrest⟩ := bind_eq_ok.1 hys
      obtain ⟨zs, hzs, -⟩ := bind_eq_ok.1 hrest
      exact ⟨⟨y, hy⟩, zs, hzs⟩
    · rintro ⟨⟨y, hy⟩, zs, hzs⟩
      exact ⟨y :: zs, by rw [hy, hzs]; rfl⟩

theorem error_of_mapM {f : α → Except ε β} {xs : List α} {err : ε}
    (h : xs.mapM f = .error err) : ∃ x ∈ xs, f x = .error err := by
  induction xs with
  | nil => cases h
  | cons x xs ih =>
    rw [List.mapM_cons] at h
    cases hx : f x with
    | error err' =>
      rw [hx] at h
      cases h
      exact ⟨x, List.mem_cons_self, hx⟩
    | ok y =>
      rw [hx, ok_bind] at h
      cases hxs : xs.mapM f with
      | error err' =>
        rw [hxs] at h
        cases h
        obtain ⟨z, hz, hfz⟩ := ih hxs
        exact ⟨z, List.mem_cons_of_mem _ hz, hfz⟩
      | ok ys =>
        rw [hxs] at h
        cases h

variable {R : α → β → Prop}

/-! ## Optional values that belong together -/

/-- What it means that two optional values belong together. -/
theorem rel_iff {x : Option α} {y : Option β} :
    Option.Rel R x y ↔ (x = none ∧ y = none) ∨ ∃ a b, x = some a ∧ y = some b ∧ R a b := by
  cases x <;> cases y <;> simp

theorem rel_mono {S : α → β → Prop} {x : Option α} {y : Option β} (h : Option.Rel R x y)
    (hRS : ∀ a b, R a b → S a b) : Option.Rel S x y := by
  cases h with
  | some hr => exact .some (hRS _ _ hr)
  | none => exact .none

/-! ## Lists that agree element by element -/

section Lists

variable {xs : List α} {ys : List β} (h : List.Forall₂ R xs ys)
include h

theorem rel_getElem? (i : Nat) : Option.Rel R xs[i]? ys[i]? := by
  induction h generalizing i with
  | nil => exact .none
  | cons hr _ ih =>
    cases i with
    | zero => exact .some hr
    | succ i => simpa using ih i

theorem forall₂_getElem? {i : Nat} {x : α} (hx : xs[i]? = some x) :
    ∃ y, ys[i]? = some y ∧ R x y := by
  rcases rel_iff.1 (rel_getElem? h i) with ⟨hnone, -⟩ | ⟨x', y, hx', hy, hr⟩
  · simp [hx] at hnone
  · obtain rfl : x = x' := Option.some.inj (hx.symm.trans hx')
    exact ⟨y, hy, hr⟩

theorem forall₂_getElem?_right {i : Nat} {y : β} (hy : ys[i]? = some y) :
    ∃ x, xs[i]? = some x ∧ R x y :=
  forall₂_getElem? h.flip hy

theorem rel_findSome? {γ δ : Type} {S : γ → δ → Prop} {f : α → Option γ} {g : β → Option δ}
    (hfg : ∀ x y, R x y → Option.Rel S (f x) (g y)) :
    Option.Rel S (xs.findSome? f) (ys.findSome? g) := by
  induction h with
  | nil => exact .none
  | cons hr _ ih =>
    rw [List.findSome?_cons, List.findSome?_cons]
    rcases rel_iff.1 (hfg _ _ hr) with ⟨hf, hg⟩ | ⟨c, d, hf, hg, hs⟩
    · rw [hf, hg]
      exact ih
    · rw [hf, hg]
      exact .some hs

theorem forall₂_zip {γ : Type} (zs : List γ) :
    List.Forall₂ (fun x y => R x.1 y.1 ∧ x.2 = y.2) (xs.zip zs) (ys.zip zs) := by
  induction h generalizing zs with
  | nil => exact .nil
  | cons hr _ ih =>
    cases zs with
    | nil => exact .nil
    | cons z zs => exact .cons ⟨hr, rfl⟩ (ih zs)

end Lists

/-- What two lists have in common, read off element by element. -/
theorem forall₂_map_eq_iff {γ : Type} {f : α → γ} {g : β → γ} {xs : List α} {ys : List β} :
    List.Forall₂ (fun x y => g y = f x) xs ys ↔ ys.map g = xs.map f := by
  rw [← List.forall₂_eq_eq_eq, List.forall₂_map_left_iff, List.forall₂_map_right_iff]
  exact ⟨List.Forall₂.flip, List.Forall₂.flip⟩

theorem forall₂_findIdx? {p : α → Bool} {q : β → Bool} {xs : List α} {ys : List β}
    (h : List.Forall₂ (fun x y => q y = p x) xs ys) : ys.findIdx? q = xs.findIdx? p := by
  have hmap := congrArg (List.findIdx? id) (forall₂_map_eq_iff.1 h)
  simpa only [List.findIdx?_map, Function.id_comp] using hmap

/-! ## Computations that end alike -/

/-- Two computations end alike: both in an error or both in a value, and these are related. -/
inductive Alike {γ : Type} (E : ε → ε → Prop) (R : α → γ → Prop) : Except ε α → Except ε γ → Prop
  | ok {a : α} {c : γ} : R a c → Alike E R (.ok a) (.ok c)
  | error {err err' : ε} : E err err' → Alike E R (.error err) (.error err')

namespace Alike

variable {γ δ : Type} {E : ε → ε → Prop} {S : γ → δ → Prop}

theorem refl (hE : ∀ err, E err err) (x : Except ε α) : Alike E Eq x x := by
  cases x with
  | ok a => exact .ok rfl
  | error err => exact .error (hE err)

/-- What two computations that end alike give may be described in other terms. -/
theorem mono {x : Except ε α} {y : Except ε β} {R' : α → β → Prop} (h : Alike E R x y)
    (hR : ∀ a b, x = .ok a → y = .ok b → R a b → R' a b) : Alike E R' x y := by
  cases h with
  | ok hab => exact .ok (hR _ _ rfl rfl hab)
  | error herr => exact .error herr

/-- The values of two computations that end alike are related. -/
theorem rel_of_ok {x : Except ε α} {y : Except ε β} {a : α} {b : β} (h : Alike E R x y)
    (hx : x = .ok a) (hy : y = .ok b) : R a b := by
  subst hx hy
  cases h with
  | ok hab => exact hab

/-- A computation gives a value if one that ends alike does. -/
theorem exists_ok {x : Except ε α} {y : Except ε β} {a : α} (h : Alike E R x y) (hx : x = .ok a) :
    ∃ b, y = .ok b ∧ R a b := by
  subst hx
  cases h with
  | ok hab => exact ⟨_, rfl, hab⟩

theorem bind {x : Except ε α} {y : Except ε β} {f : α → Except ε γ} {g : β → Except ε δ}
    (h : Alike E R x y) (hfg : ∀ a b, R a b → Alike E S (f a) (g b)) :
    Alike E S (x >>= f) (y >>= g) := by
  cases h with
  | ok hab => exact hfg _ _ hab
  | error herr => exact .error herr

theorem mapM {f : α → Except ε γ} {g : β → Except ε δ} {xs : List α} {ys : List β}
    (h : List.Forall₂ R xs ys) (hfg : ∀ a b, R a b → Alike E S (f a) (g b)) :
    Alike E (List.Forall₂ S) (xs.mapM f) (ys.mapM g) := by
  induction h with
  | nil => exact .ok .nil
  | cons hab _ ih =>
    rw [List.mapM_cons, List.mapM_cons]
    apply (hfg _ _ hab).bind
    intro c d hcd
    apply ih.bind
    intro cs ds hcds
    exact .ok (.cons hcd hcds)

end Alike

end BootImage
