import BootImage.Proofs.Linked

/-!
# Labels that nothing refers to

A label takes no space and changes neither the origin nor the mode. Put into a stream that neither
defines nor refers to its name, it moves the entries behind it one position on, and leaves them
where they are in the image. Positions in a stream are used to find the targets of references, to
tell later targets from earlier ones, to say which jumps may be shortened and to say where a
reserved area starts. All of them move with the entries, in order, so that every pass takes the same
decisions on both streams.

* `Inserted`, `positionAfter` — a list with one more element, and where the others then are.
* `layFrom_inserted` — the label gets a place of its own and no other place changes.
* `locate_inserted`, `candidatesFrom_inserted` — references and candidates move with the entries.
* `shrink_inserted`, `relaxFrom_inserted` — a pass shortens the same jumps, and so do all passes.
* `emit_inserted` — the same bytes are written.
* `link_inserted` — the streams are linked to the same image, but for the label.
-/

namespace BootImage

open Text

variable {α β : Type}

/-! ## One more element -/

/-- The second list is the first with `x` put in at position `k`. -/
inductive Inserted (x : α) : Nat → List α → List α → Prop
  | here (xs : List α) : Inserted x 0 xs (x :: xs)
  | there {k : Nat} {xs ys : List α} (a : α) : Inserted x k xs ys →
      Inserted x (k + 1) (a :: xs) (a :: ys)

/-- Where the element at position `i` is, once one has been put in at position `k`. -/
def positionAfter (k i : Nat) : Nat :=
  if i < k then i else i + 1

theorem positionAfter_lt_iff {k i j : Nat} : positionAfter k i < positionAfter k j ↔ i < j := by
  unfold positionAfter
  split <;> split <;> omega

theorem positionAfter_succ (k i : Nat) : positionAfter (k + 1) (i + 1) = positionAfter k i + 1 := by
  simp only [positionAfter, Nat.add_lt_add_iff_right]
  split <;> rfl

namespace Inserted

variable {x : α} {k : Nat} {xs ys : List α}

theorem append (front back : List α) :
    Inserted x front.length (front ++ back) (front ++ x :: back) := by
  induction front with
  | nil => exact .here back
  | cons a front ih => exact .there a ih

variable (h : Inserted x k xs ys)
include h

theorem perm : ys.Perm (x :: xs) := by
  induction h with
  | here xs => exact .refl _
  | @there k xs ys a _ ih => exact (ih.cons a).trans (.swap x a xs)

theorem le_length : k ≤ xs.length := by
  induction h with
  | here xs => exact Nat.zero_le _
  | there a _ ih => exact Nat.succ_le_succ ih

theorem map (f : α → β) : Inserted (f x) k (xs.map f) (ys.map f) := by
  induction h with
  | here xs => exact .here _
  | there a _ ih => exact .there (f a) ih

theorem getElem?_eq (i : Nat) : ys[positionAfter k i]? = xs[i]? := by
  induction h generalizing i with
  | here xs => rfl
  | there a _ ih =>
    cases i with
    | zero => rfl
    | succ i => rw [positionAfter_succ, List.getElem?_cons_succ, List.getElem?_cons_succ, ih]

theorem getElem?_self : ys[k]? = some x := by
  induction h with
  | here xs => rfl
  | there a _ ih => exact ih

theorem set (i : Nat) (a : α) : Inserted x k (xs.set i a) (ys.set (positionAfter k i) a) := by
  induction h generalizing i with
  | here xs => exact .here _
  | there b hrest ih =>
    cases i with
    | zero => exact .there a hrest
    | succ i =>
      rw [positionAfter_succ]
      exact .there b (ih i)

/-- Elements of both lists are set at the positions where they are. -/
theorem foldl_set (positions : List Nat) (a : α) :
    Inserted x k (positions.foldl (fun xs i => xs.set i a) xs)
      ((positions.map (positionAfter k)).foldl (fun ys i => ys.set i a) ys) := by
  induction positions generalizing xs ys with
  | nil => exact h
  | cons i positions ih => exact ih (h.set i a)

theorem findIdx?_eq {p : α → Bool} (hx : p x = false) :
    ys.findIdx? p = (xs.findIdx? p).map (positionAfter k) := by
  induction h with
  | here xs =>
    rw [List.findIdx?_cons, if_neg (by simp [hx])]
    rfl
  | @there k xs ys a _ ih =>
    rw [List.findIdx?_cons, List.findIdx?_cons, ih]
    by_cases ha : p a = true
    · rw [if_pos ha, if_pos ha]
      rfl
    · rw [if_neg ha, if_neg ha, Option.map_map, Option.map_map]
      congr 1
      funext i
      exact (positionAfter_succ k i).symm

theorem findSome?_eq {f : α → Option β} (hx : f x = none) : ys.findSome? f = xs.findSome? f := by
  induction h with
  | here xs => rw [List.findSome?_cons, hx]
  | there a _ ih => rw [List.findSome?_cons, List.findSome?_cons, ih]

/-- A traversal of the longer list has one more result, if the step gives one there and ends alike
on everything else. -/
theorem mapM_alike {ε : Type} {f g : α → Except ε β} {y : β} (hx : g x = .ok y)
    (hfg : ∀ a ∈ xs, Alike Eq Eq (f a) (g a)) :
    Alike Eq (Inserted y k) (xs.mapM f) (ys.mapM g) := by
  induction h with
  | here xs =>
    have hrest : Alike Eq (List.Forall₂ Eq) (xs.mapM f) (xs.mapM g) :=
      Alike.mapM (List.forall₂_same.2 hfg) fun _ _ hab => hab
    rw [List.mapM_cons, hx, ok_bind, ← bind_pure (xs.mapM f)]
    apply hrest.bind
    intro zs zs' hzs
    rw [List.forall₂_eq_eq_eq] at hzs
    subst hzs
    exact .ok (.here zs)
  | there a _ ih =>
    obtain ⟨ha, hxs⟩ := List.forall_mem_cons.1 hfg
    rw [List.mapM_cons, List.mapM_cons]
    apply ha.bind
    rintro b _ rfl
    apply (ih hxs).bind
    intro zs zs' hzs
    exact .ok (.there b hzs)

theorem zip {γ : Type} {z : γ} {zs zs' : List γ} (hz : Inserted z k zs zs') :
    Inserted (x, z) k (xs.zip zs) (ys.zip zs') := by
  induction h generalizing zs zs' with
  | here xs =>
    cases hz
    exact .here _
  | there a _ ih =>
    cases hz with
    | there c hz => exact .there (a, c) (ih hz)

omit h in
theorem flatten_eq {chunks chunks' : List (List α)} (hchunks : Inserted [] k chunks chunks') :
    chunks'.flatten = chunks.flatten := by
  induction hchunks with
  | here chunks => rfl
  | there chunk _ ih => rw [List.flatten_cons, List.flatten_cons, ih]

/-- What is in front of a position has one more element if the position is behind that. -/
theorem take (n : Nat) :
    Inserted x k (xs.take n) (ys.take (positionAfter k n)) ∨
      ys.take (positionAfter k n) = xs.take n := by
  induction h generalizing n with
  | here xs => exact .inl (.here _)
  | there a _ ih =>
    cases n with
    | zero => exact .inr rfl
    | succ n =>
      rw [positionAfter_succ, List.take_succ_cons, List.take_succ_cons]
      rcases ih n with hrest | hrest
      · exact .inl (.there a hrest)
      · exact .inr (by rw [hrest])

end Inserted

/-! ## Layouts -/

variable {name : String} {k : Nat} {code code' : Code} {forms forms' : List BranchForm}
  {layout layout' : Layout} {index index' : LabelIndex}

/-- The second layout has one more place, for a label, which is where the next entry is. -/
structure Layout.LabelInserted (name : String) (k : Nat) (layout layout' : Layout) : Prop where
  places : ∃ p : Place, Inserted p k layout.places layout'.places ∧ p.entry = .label name ∧
    p.form = .near ∧ p.offset = (layout.places[k]?.map Place.offset).getD layout.stop
  stop : layout'.stop = layout.stop

/-- A label gets a place of its own, and no other place changes. -/
theorem layFrom_inserted (hcode : Inserted (.label name) k code code')
    (hforms : Inserted .near k forms forms') (c : Cursor) :
    Alike Eq (Layout.LabelInserted name k) (Layout.layFrom c code forms)
      (Layout.layFrom c code' forms') := by
  -- By induction on where the label goes in. The cursor is carried: it is the same for both
  -- streams, since a label takes no space.
  induction hcode generalizing c forms forms' with
  | here code =>
    cases hforms
    show Alike Eq _ (Layout.layFrom c code forms) (Layout.layFrom c code forms >>= _)
    cases hlayout : Layout.layFrom c code forms with
    | error err => exact .error rfl
    | ok layout =>
      refine .ok ⟨⟨_, .here _, rfl, rfl, ?_⟩, rfl⟩
      cases code with
      | nil =>
        cases hlayout
        rfl
      | cons e code =>
        obtain ⟨size, rest, -, -, rfl⟩ := Layout.layFrom_cons_eq_ok.1 hlayout
        rfl
  | there e _ ih =>
    cases hforms with
    | there form hforms =>
      apply (Alike.refl (fun _ => rfl) (c.advance e form)).bind
      rintro ⟨size, next⟩ _ rfl
      apply (ih hforms next).bind
      rintro rest rest' ⟨⟨p, hp, hentry, hform, hoffset⟩, hstop⟩
      exact .ok ⟨⟨p, .there _ hp, hentry, hform, hoffset⟩, hstop⟩

theorem Layout.LabelInserted.getElem?_eq (h : layout.LabelInserted name k layout') (i : Nat) :
    layout'.places[positionAfter k i]? = layout.places[i]? := by
  obtain ⟨p, hp, -⟩ := h.places
  exact hp.getElem?_eq i

/-! ## References -/

/-- The second index finds what the first one does, at the position where it then is. Of the name
that has been put in, nothing is said. -/
def LabelIndex.Moved (name : String) (k : Nat) (index index' : LabelIndex) : Prop :=
  ∀ other, sameName name other = false →
    index'.get? other = (index.get? other).map (positionAfter k)

/-- No label that the entry refers to has the given name. -/
def Entry.Avoids (name : String) (e : Entry) : Prop :=
  ∀ other, e.Uses other → sameName name other = false

section References

variable (hindex : index.Moved name k index') (hlayout : layout.LabelInserted name k layout')
include hindex hlayout

/-- A reference is to the same place, at the position where that then is. -/
theorem locate_inserted {other : String} (hother : sameName name other = false) :
    Alike Eq (fun found found' => found' = (positionAfter k found.1, found.2))
      (layout.locate index other) (layout'.locate index' other) := by
  unfold Layout.locate
  rw [hindex other hother]
  cases index.get? other with
  | none => exact .error rfl
  | some position =>
    rw [Option.map_some]
    dsimp only
    rw [hlayout.getElem?_eq position]
    cases layout.places[position]? with
    | none => exact .error rfl
    | some p => exact .ok rfl

section Places

variable {p : Place} (hp : p.entry.Avoids name)
include hp

theorem resolveReference_inserted :
    Alike Eq Eq (p.resolveReference index layout) (p.resolveReference index' layout') := by
  unfold Place.resolveReference
  cases href : p.entry.reference? with
  | none => exact .ok rfl
  | some ref =>
    apply (locate_inserted hindex hlayout (hp _ (.inl ⟨ref.kind, href⟩))).bind
    rintro ⟨position, target⟩ _ rfl
    exact .refl (fun _ => rfl) _

theorem resolveMemory_inserted :
    Alike Eq Eq (p.resolveMemory index layout) (p.resolveMemory index' layout') := by
  unfold Place.resolveMemory
  cases href : p.entry.memoryLabel? with
  | none => exact .ok rfl
  | some ref =>
    apply (locate_inserted hindex hlayout (hp _ (.inr ⟨ref.2, href⟩))).bind
    rintro ⟨position, target⟩ _ rfl
    exact .ok rfl

theorem resolve_inserted :
    Alike Eq Eq (p.resolve index layout) (p.resolve index' layout') := by
  apply (resolveReference_inserted hindex hlayout hp).bind
  rintro target _ rfl
  apply (resolveMemory_inserted hindex hlayout hp).bind
  rintro symbol _ rfl
  exact .ok rfl

/-- A jump is a candidate as before, since its target is still in front of it or still behind. -/
theorem isCandidate_inserted (i : Nat) :
    p.isCandidate (positionAfter k i) index' layout' = p.isCandidate i index layout := by
  unfold Place.isCandidate
  congr 1
  cases href : p.entry.reference? with
  | none => rfl
  | some ref =>
    have hfound := locate_inserted hindex hlayout (hp _ (.inl ⟨ref.kind, href⟩))
    dsimp only
    generalize layout.locate index ref.label = found, layout'.locate index' ref.label = found'
      at hfound ⊢
    cases hfound with
    | error herr => rfl
    | ok hfound =>
      subst hfound
      simp only [positionAfter_lt_iff]

theorem reaches_inserted :
    Alike Eq Eq (p.reaches index layout) (p.reaches index' layout') := by
  unfold Place.reaches
  cases p.form with
  | near => exact .ok rfl
  | short =>
    cases href : p.entry.reference? with
    | none => exact .ok rfl
    | some ref =>
      apply (locate_inserted hindex hlayout (hp _ (.inl ⟨ref.kind, href⟩))).bind
      rintro ⟨position, target⟩ _ rfl
      exact .ok rfl

end Places

variable {places places' : List Place} (havoids : ∀ p ∈ places, p.entry.Avoids name)

include havoids in
/-- The candidates behind the label are one position further on. -/
theorem candidatesFrom_behind {position : Nat} (hle : k ≤ position) :
    layout'.candidatesFrom index' (position + 1) places =
      (layout.candidatesFrom index position places).map (positionAfter k) := by
  induction places generalizing position with
  | nil => rfl
  | cons p places ih =>
    obtain ⟨hp, hplaces⟩ := List.forall_mem_cons.1 havoids
    have hposition : positionAfter k position = position + 1 := if_neg (Nat.not_lt.2 hle)
    have hcandidate := isCandidate_inserted hindex hlayout hp position
    rw [hposition] at hcandidate
    simp only [Layout.candidatesFrom, hcandidate, ih hplaces (Nat.le_succ_of_le hle)]
    split
    · rw [List.map_cons, hposition]
    · rfl

include havoids in
/-- The candidates in front of the label stay where they are, and the label is none. -/
theorem candidatesFrom_inserted {q : Place} (hentry : q.entry = .label name) {j position : Nat}
    (h : Inserted q j places places') (hposition : position + j = k) :
    layout'.candidatesFrom index' position places' =
      (layout.candidatesFrom index position places).map (positionAfter k) := by
  induction h generalizing position with
  | here places =>
    -- The label itself is no candidate, and behind it all positions move by one.
    have hlabel : q.isCandidate position index' layout' = false := by
      simp [Place.isCandidate, hentry, Entry.isShrinkable]
    rw [Layout.candidatesFrom, hlabel]
    exact candidatesFrom_behind hindex hlayout havoids hposition.ge
  | @there j places places' p h ih =>
    obtain ⟨hp, hplaces⟩ := List.forall_mem_cons.1 havoids
    have hfront : positionAfter k position = position := if_pos (by omega)
    have hcandidate := isCandidate_inserted hindex hlayout hp position
    rw [hfront] at hcandidate
    have hrest := ih hplaces (show position + 1 + j = k by omega)
    simp only [Layout.candidatesFrom, hcandidate, hrest]
    split
    · rw [List.map_cons, hfront]
    · rfl

include havoids in
theorem allReach_inserted {q : Place} (hform : q.form = .near) {j : Nat}
    (h : Inserted q j places places') :
    Alike Eq Eq (layout.allReach index places) (layout'.allReach index' places') := by
  -- The layout stays the same while the induction runs through its places.
  have hstep {p : Place} (hp : p.entry.Avoids name) {rest rest' : List Place}
      (hrest : Alike Eq Eq (layout.allReach index rest) (layout'.allReach index' rest')) :
      Alike Eq Eq (layout.allReach index (p :: rest)) (layout'.allReach index' (p :: rest')) := by
    apply (reaches_inserted hindex hlayout hp).bind
    rintro reach _ rfl
    cases reach with
    | true => exact hrest
    | false => exact .ok rfl
  induction h with
  | here places =>
    have hlabel : q.reaches index' layout' = .ok true := by
      rw [Place.reaches, hform]
    rw [Layout.allReach, hlabel]
    induction places with
    | nil => exact .ok rfl
    | cons p places ih =>
      obtain ⟨hp, hplaces⟩ := List.forall_mem_cons.1 havoids
      exact hstep hp (ih hplaces)
  | there p h ih =>
    obtain ⟨hp, hplaces⟩ := List.forall_mem_cons.1 havoids
    exact hstep hp (ih hplaces)

variable (hplaces : ∀ p ∈ layout.places, p.entry.Avoids name)
include hplaces

theorem resolutions_inserted :
    Alike Eq (Inserted {} k) (layout.resolutions index) (layout'.resolutions index') := by
  obtain ⟨q, hq, hentry, -⟩ := hlayout.places
  have hlabel : q.resolve index' layout' = .ok {} := by
    simp [Place.resolve, Place.resolveReference, Place.resolveMemory, hentry, Entry.reference?,
      Entry.memoryLabel?, Entry.memory?, pure, Except.pure]
  exact hq.mapM_alike hlabel fun p hp => resolve_inserted hindex hlayout (hplaces p hp)

theorem candidates_inserted :
    layout'.candidates index' = (layout.candidates index).map (positionAfter k) := by
  obtain ⟨q, hq, hentry, -⟩ := hlayout.places
  exact candidatesFrom_inserted hindex hlayout hplaces hentry hq (Nat.zero_add k)

end References

/-! ## Passes -/

section Passes

variable (hcode : Inserted (.label name) k code code') (hindex : index.Moved name k index')
  (havoids : ∀ e ∈ code, e.Avoids name)
include hcode hindex havoids

omit hindex in
theorem compute_inserted (hforms : Inserted .near k forms forms') :
    Alike Eq
      (fun layout layout' => layout.LabelInserted name k layout' ∧
        ∀ p ∈ layout.places, p.entry.Avoids name)
      (Layout.compute code forms) (Layout.compute code' forms') := by
  refine (layFrom_inserted hcode hforms {}).mono fun layout layout' hlaid _ hlayout =>
    ⟨hlayout, fun p hp => havoids _ ?_⟩
  rw [← Layout.entries_layFrom hlaid]
  exact List.mem_map_of_mem hp

theorem shortsReach_inserted (hforms : Inserted .near k forms forms') :
    Alike Eq Eq (shortsReach code index forms) (shortsReach code' index' forms') := by
  apply (compute_inserted hcode havoids hforms).bind
  rintro layout layout' ⟨hlayout, hplaces⟩
  obtain ⟨q, hq, -, hform, -⟩ := hlayout.places
  exact allReach_inserted hindex hlayout hplaces hform hq

/-- The forms that a pass ends with, and how many jumps it has shortened. -/
def ShrunkAlike (k : Nat) (shrunk shrunk' : List BranchForm × Nat) : Prop :=
  Inserted .near k shrunk.1 shrunk'.1 ∧ shrunk'.2 = shrunk.2

theorem shrinkEach_inserted (hforms : Inserted .near k forms forms') (positions : List Nat) :
    Alike Eq (ShrunkAlike k) (shrinkEach code index forms positions)
      (shrinkEach code' index' forms' (positions.map (positionAfter k))) := by
  induction positions generalizing forms forms' with
  | nil => exact .ok ⟨hforms, rfl⟩
  | cons position positions ih =>
    have hset := hforms.set position .short
    apply (shortsReach_inserted hcode hindex havoids hset).bind
    rintro reach _ rfl
    cases reach with
    | false => exact ih hforms
    | true =>
      apply (ih hset).bind
      rintro ⟨forms, n⟩ ⟨forms', _⟩ ⟨hforms, rfl⟩
      exact .ok ⟨hforms, rfl⟩

/-- A pass shortens the jumps that it shortened, at the positions where they then are. -/
theorem shrink_inserted (hforms : Inserted .near k forms forms') (positions : List Nat) :
    Alike Eq (ShrunkAlike k) (shrink code index forms positions)
      (shrink code' index' forms' (positions.map (positionAfter k))) := by
  unfold shrink
  rw [List.isEmpty_map]
  by_cases hempty : positions.isEmpty = true
  · rw [if_pos hempty, if_pos hempty]
    exact .ok ⟨hforms, rfl⟩
  · rw [if_neg hempty, if_neg hempty]
    have hall := hforms.foldl_set positions .short
    apply (shortsReach_inserted hcode hindex havoids hall).bind
    rintro reach _ rfl
    cases reach with
    | false => exact shrinkEach_inserted hcode hindex havoids hforms positions
    | true => exact .ok ⟨hall, List.length_map _⟩

/-- Two runs of jump shrinking that end in the same layout but for a label. -/
structure Relaxed.LabelInserted (name : String) (k : Nat) (r r' : Relaxed) : Prop where
  layout : r.layout.LabelInserted name k r'.layout
  resolutions : Inserted {} k r.resolutions r'.resolutions
  passes : r'.passes = r.passes

theorem relaxFrom_inserted (hforms : Inserted .near k forms forms') (pass budget : Nat) :
    Alike Eq (Relaxed.LabelInserted name k) (relaxFrom code index pass forms budget)
      (relaxFrom code' index' pass forms' budget) := by
  -- By induction on the budget: in each pass both runs shorten the same jumps.
  induction budget generalizing pass forms forms' with
  | zero => exact .error rfl
  | succ budget ih =>
    apply (compute_inserted hcode havoids hforms).bind
    rintro layout layout' ⟨hlayout, hplaces⟩
    have hresolutions := resolutions_inserted hindex hlayout hplaces
    apply hresolutions.bind
    intro resolved resolved' hresolved
    rw [candidates_inserted hindex hlayout hplaces]
    apply (shrink_inserted hcode hindex havoids hforms (layout.candidates index)).bind
    rintro ⟨forms, _⟩ ⟨forms', shrunk⟩ ⟨hforms, rfl⟩
    dsimp only
    by_cases hshrunk : shrunk = 0
    · rw [if_pos hshrunk, if_pos hshrunk]
      exact .ok ⟨hlayout, hresolved, rfl⟩
    · rw [if_neg hshrunk, if_neg hshrunk]
      exact ih hforms (pass + 1)

theorem relax_inserted :
    Alike Eq (Relaxed.LabelInserted name k) (relax code index) (relax code' index') := by
  have hforms := hcode.map fun _ => BranchForm.near
  have hcount := (hcode.perm.filter Entry.isShrinkable).length_eq
  have hlabel : ((Entry.label name :: code).filter Entry.isShrinkable).length =
      (code.filter Entry.isShrinkable).length := rfl
  unfold relax
  rw [hcount, hlabel]
  exact relaxFrom_inserted hcode hindex havoids hforms 1 _

end Passes

/-! ## Images -/

/-- The same bytes are written, because those of a label are none. -/
theorem emit_inserted {r r' : Relaxed} (hr : r.LabelInserted name k r') (written : Nat) :
    Alike Eq
      (fun image image' => image'.bytes = image.bytes ∧ image'.passes = image.passes ∧
        image'.shrunk = image.shrunk)
      (emit code index r written) (emit code' index' r' (positionAfter k written)) := by
  obtain ⟨q, hq, hentry, hform, -⟩ := hr.layout.places
  have hlabel : q.chunk {} = .ok [] := by
    rw [Place.chunk, hentry]
  -- The label adds an empty chunk, or the bytes end in front of it.
  have hchunks : Alike Eq (fun chunks chunks' => chunks'.flatten = chunks.flatten)
      (((r.layout.places.zip r.resolutions).take written).mapM fun x => x.1.chunk x.2)
      (((r'.layout.places.zip r'.resolutions).take (positionAfter k written)).mapM
        fun x => x.1.chunk x.2) := by
    rcases (hq.zip hr.resolutions).take written with htake | htake
    · refine (htake.mapM_alike hlabel fun _ _ => .refl (fun _ => rfl) _).mono ?_
      intro chunks chunks' _ _ hinserted
      exact Inserted.flatten_eq hinserted
    · rw [htake]
      exact (Alike.refl (fun _ => rfl) _).mono fun _ _ _ _ heq => by rw [heq]
  have hshrunk : (r'.layout.places.filter (·.form == .short)).length =
      (r.layout.places.filter (·.form == .short)).length := by
    rw [(hq.perm.filter _).length_eq, List.filter_cons_of_neg (by simp [hform])]
  apply hchunks.bind
  intro chunks chunks' hflatten
  exact .ok ⟨hflatten, hr.passes, hshrunk⟩

section Links

variable (hcode : Inserted (.label name) k code code')
  (hfresh : ∀ e ∈ code, e.defines name = false)

include hfresh

/-- What a stream defines goes by other names than one that the stream does not define. -/
theorem sameName_eq_false {other : String} (h : ∃ e ∈ code, e.defines other = true) :
    sameName name other = false := by
  obtain ⟨e, he, hdefines⟩ := h
  rw [← Bool.not_eq_true]
  intro hsame
  have hname : e.defines name = e.defines other := by
    have hfold : foldCase name = foldCase other := by simpa [sameName] using hsame
    simp only [Entry.defines, sameName, hfold]
  rw [hfresh e he, hdefines] at hname
  cases hname

include hcode

theorem exists_build_inserted (hindex : LabelIndex.build code = .ok index) :
    ∃ index', LabelIndex.build code' = .ok index' ∧ index.Moved name k index' := by
  have hnodup := LabelIndex.exists_build_iff.1 ⟨index, hindex⟩
  have hname : name ∉ code.filterMap Entry.label? := by
    intro hmem
    obtain ⟨e, he, hlabel⟩ := List.mem_filterMap.1 hmem
    have hdefines := hfresh e he
    rw [LabelIndex.defines_of_label? hlabel] at hdefines
    simp at hdefines
  obtain ⟨index', hindex'⟩ : ∃ index', LabelIndex.build code' = .ok index' := by
    rw [LabelIndex.exists_build_iff, (hcode.perm.filterMap _).nodup_iff]
    exact List.nodup_cons.2 ⟨hname, hnodup⟩
  refine ⟨index', hindex', fun other hother => ?_⟩
  rw [LabelIndex.get?_build hindex, LabelIndex.get?_build hindex']
  exact hcode.findIdx?_eq hother

/-- The reserved area starts at the entry where it started. -/
theorem writtenEntries_inserted {marker : Option String} {written : Nat}
    (hindex : LabelIndex.build code = .ok index) (hmoved : index.Moved name k index')
    (h : writtenEntries code index marker = .ok written) :
    writtenEntries code' index' marker = .ok (positionAfter k written) := by
  have hwritten := (writtenEntries_eq_ok hindex).1 h
  cases marker with
  | none =>
    subst hwritten
    rw [writtenEntries, hcode.perm.length_eq, positionAfter, if_neg hcode.le_length.not_gt]
    rfl
  | some marker =>
    obtain ⟨hlt, hdefines, -⟩ := List.findIdx?_eq_some_iff_getElem.1 hwritten
    have hmarker := sameName_eq_false hfresh ⟨_, List.getElem_mem hlt, hdefines⟩
    rw [writtenEntries, LabelIndex.require_eq_ok_iff, hmoved marker hmarker,
      LabelIndex.get?_build hindex, hwritten]
    rfl

end Links

theorem findIdx?_insertedLabel {front : Code} {name : String} (back : Code)
    (hfresh : ∀ e ∈ front, e.defines name = false) :
    (front ++ .label name :: back).findIdx? (·.defines name) = some front.length := by
  have hdefines : (Entry.label name).defines name = true := by
    simp [Entry.defines, Entry.label?, sameName]
  have hhead : (Entry.label name :: back).findIdx? (·.defines name) = some 0 := by
    rw [List.findIdx?_cons, if_pos hdefines]
  exact findIdx?_append_of_fresh hfresh hhead

/-- **Labels that nothing refers to are inert.** Put a label anywhere into a stream that links and
does not define its name in any letter case. References and the marker are then to other names,
because the stream defines them. The stream still links, to the same bytes, under the same origin,
after as many passes and with as many short jumps. Every other label is where it was, and the new
one has the offset of the entry behind it, or of the end of the layout. -/
theorem link_inserted {front back : Code} {name : String} {marker : Option String} {image : Image}
    (hfresh : ∀ e ∈ front ++ back, e.defines name = false)
    (himage : link (front ++ back) marker = .ok image) :
    ∃ image' index r, link (front ++ .label name :: back) marker = .ok image' ∧
      LabelIndex.build (front ++ .label name :: back) = .ok index ∧
      relax (front ++ .label name :: back) index = .ok r ∧
      image'.bytes = image.bytes ∧ image'.origin = image.origin ∧
      image'.passes = image.passes ∧ image'.shrunk = image.shrunk ∧
      (∀ other, sameName name other = false → image'.label? other = image.label? other) ∧
      ∃ place, image'.label? name = some place ∧
        place.offset =
          (r.layout.places[front.length + 1]?.map Place.offset).getD r.layout.stop := by
  have hcode := Inserted.append (x := Entry.label name) front back
  obtain ⟨index, r, written, hindex, hrelax, hwritten, hemit⟩ := link_eq_ok.1 himage
  obtain ⟨index', hindex', hmoved⟩ := exists_build_inserted hcode hfresh hindex
  obtain ⟨hlinkable, hr⟩ := relax_outcome hindex hrelax
  -- Every label that the stream uses is defined in it, so none of them is the new one.
  have havoids : ∀ e ∈ front ++ back, e.Avoids name := fun e he other huses =>
    sameName_eq_false hfresh (hlinkable.closed e he other huses)
  -- From here on the two runs go side by side: shrinking, the marker, the bytes.
  obtain ⟨r', hrelax', hinserted⟩ := (relax_inserted hcode hmoved havoids).exists_ok hrelax
  have hwritten' := writtenEntries_inserted hcode hfresh hindex hmoved hwritten
  have hemits : Alike Eq _ (emit (front ++ back) index r written)
      (emit (front ++ .label name :: back) index' r' (positionAfter front.length written)) :=
    emit_inserted hinserted written
  obtain ⟨image', hemit', hbytes, hpasses, hshrunk⟩ := hemits.exists_ok hemit
  have himage' := link_eq_ok.2 ⟨index', r', _, hindex', hrelax', hwritten', hemit'⟩
  have hr' := (relax_outcome hindex' hrelax').2
  have hentries := Layout.places_entry hr.laidOut
  have hentries' := Layout.places_entry hr'.laidOut
  refine ⟨image', index', r', himage', hindex', hrelax', hbytes, ?origin, hpasses, hshrunk,
    ?others, ?label⟩
  case origin =>
    rw [origin_of_link himage, origin_of_link himage', firstOrigin, firstOrigin,
      hcode.findSome?_eq rfl]
  case others =>
    intro other hother
    have hfind := hcode.findIdx?_eq (p := (·.defines other)) hother
    rw [label?_of_emit hindex hentries hemit, label?_of_emit hindex' hentries' hemit',
      Layout.definition?_eq hentries, Layout.definition?_eq hentries', hfind]
    -- Another label is defined by the same entry, only one position later behind the new label.
    cases (front ++ back).findIdx? (·.defines other) with
    | none => rfl
    | some i =>
      rw [Option.map_some, Option.bind_some, Option.bind_some, hinserted.layout.getElem?_eq]
  case label =>
    obtain ⟨q, hq, -, -, hoffset⟩ := hinserted.layout.places
    have hfind := findIdx?_insertedLabel back fun e he => hfresh e (List.mem_append_left _ he)
    have hnext := hinserted.layout.getElem?_eq front.length
    rw [positionAfter, if_neg (lt_irrefl _)] at hnext
    refine ⟨q.labelAddress, ?_, ?_⟩
    · rw [label?_of_emit hindex' hentries' hemit', Layout.definition?_eq hentries', hfind,
        Option.bind_some, hq.getElem?_self, Option.map_some]
    · rw [hnext, hinserted.layout.stop]
      exact hoffset

/-- A label between a jump and its target, where a reserved area starts. -/
theorem link_inserted_jump :
    ∃ image image', link [.instruction ⟨.jmp, [.label "end"]⟩, .label "End",
        .times 4 0] (some "END") = .ok image ∧
      link [.instruction ⟨.jmp, [.label "end"]⟩, .label "spare", .label "End",
        .times 4 0] (some "END") = .ok image' ∧
      image'.bytes = image.bytes ∧ image'.label? "end" = image.label? "end" := by
  have hfresh : ∀ e : Entry, e ∈ [.instruction ⟨.jmp, [.label "end"]⟩] ++
      [.label "End", .times 4 0] → e.defines "spare" = false := by
    decide
  have himage : link ([.instruction ⟨.jmp, [.label "end"]⟩] ++ [.label "End", .times 4 0])
      (some "END") = .ok _ := rfl
  obtain ⟨image', _, _, himage', -, -, hbytes, -, -, -, hlabels, -⟩ := link_inserted hfresh himage
  exact ⟨_, image', himage, himage', hbytes, hlabels "end" (by decide)⟩

end BootImage
