import BootImage.Proofs.Runs
import Mathlib.Order.CompletePartialOrder
import Mathlib.Order.Interval.Set.Disjoint

/-!
# Offsets of fields

A session answers queries `Type::field` from the layouts that were registered. The names of types
may hold `::` and a layout may name a field twice, so a query is split at the last `::` in it, the
layout is the one registered last under the name, and the field is the first of its name.

* `FieldQuery.Splits`, `FieldQuery.ofString?_eq_some_iff` — where a query is split.
* `TypeLayout.FieldAt`, `TypeLayout.offsetOf?_eq_some_iff` — where a field stands in its type.
* `TypeLayout.FieldAt.disjoint` — fields of different names do not overlap.
* `History.RegisteredLast`, `Run.find?_types_eq_some_iff` — which layout a name stands for.
* `Run.fieldAnswers` — what a session answers after any run.
-/

namespace BootImage

open Multiboot

/-! ## Splitting a query -/

namespace FieldQuery

section Characters

variable {cs before after before' after' : List Char}

/-- A text that starts with `::` is split there if there is no other one behind. -/
theorem splitLast?_cons (c : Char) (cs : List Char) : splitLast? (c :: cs) =
    match splitLast? cs with
    | some (before, after) => some (c :: before, after)
    | none => if c = ':' ∧ cs.head? = some ':' then some ([], cs.tail) else none := by
  conv_lhs => unfold splitLast?
  cases splitLast? cs with
  | some split => rfl
  | none =>
    dsimp only
    split
    case h_1 => simp
    case h_2 hne =>
      rw [if_neg]
      rintro ⟨rfl, hhead⟩
      obtain ⟨rest, rfl⟩ := List.head?_eq_some_iff.1 hhead
      exact hne rest rfl rfl

theorem splitLast?_eq_none_iff : splitLast? cs = none ↔ ¬[':', ':'] <:+: cs := by
  induction cs with
  | nil => simp [splitLast?]
  | cons c cs ih =>
    have hprefix : [':', ':'] <+: c :: cs ↔ c = ':' ∧ cs.head? = some ':' := by
      cases cs <;> simp [List.cons_prefix_cons, eq_comm]
    rw [List.infix_cons_iff, not_or, ← ih, splitLast?_cons, hprefix]
    cases splitLast? cs <;> simp

theorem eq_of_splitLast? (h : splitLast? cs = some (before, after)) :
    cs = before ++ [':', ':'] ++ after := by
  induction cs generalizing before with
  | nil => cases h
  | cons c cs ih =>
    rw [splitLast?_cons] at h
    cases hrest : splitLast? cs with
    | some split =>
      rw [hrest] at h
      cases h
      rw [ih hrest]
      rfl
    | none =>
      rw [hrest] at h
      obtain ⟨⟨rfl, hhead⟩, hsplit⟩ := Option.ite_none_right_eq_some.1 h
      cases hsplit
      exact congrArg (':' :: ·) (List.eq_cons_of_mem_head? hhead)

/-- No other `::` stands behind the one at which a text is split. -/
theorem length_le_of_splitLast? (h : splitLast? cs = some (before, after))
    (hcs : cs = before' ++ [':', ':'] ++ after') : before'.length ≤ before.length := by
  induction cs generalizing before before' with
  | nil => cases h
  | cons c cs ih =>
    cases before' with
    | nil => exact Nat.zero_le _
    | cons c' before' =>
      have hrest : cs = before' ++ [':', ':'] ++ after' := (List.cons.inj hcs).2
      rw [splitLast?_cons] at h
      cases hsplit : splitLast? cs with
      | some split =>
        rw [hsplit] at h
        cases h
        exact Nat.succ_le_succ (ih hsplit hrest)
      | none => exact absurd ⟨before', after', hrest.symm⟩ (splitLast?_eq_none_iff.1 hsplit)

end Characters

/-- The query as a text. -/
def text (q : FieldQuery) : String :=
  q.type ++ "::" ++ q.field

theorem toList_text (q : FieldQuery) :
    q.text.toList = q.type.toList ++ [':', ':'] ++ q.field.toList := by
  simp [text]

/-- The query is a text, split at the last `::` in it. -/
def Splits (q : FieldQuery) (s : String) : Prop :=
  s = q.text ∧ ∀ q' : FieldQuery, s = q'.text → q'.type.length ≤ q.type.length

variable {q q' : FieldQuery} {s : String}

theorem ofString?_eq_none_iff : ofString? s = none ↔ ¬"::".toList <:+: s.toList := by
  rw [ofString?, Option.map_eq_none_iff, splitLast?_eq_none_iff]
  rfl

theorem splits_of_ofString? (h : ofString? s = some q) : q.Splits s := by
  obtain ⟨⟨before, after⟩, hsplit, rfl⟩ := Option.map_eq_some_iff.1 h
  refine ⟨String.toList_injective ?_, fun q' hq' => ?_⟩
  · rw [toList_text, String.toList_ofList, String.toList_ofList]
    exact eq_of_splitLast? hsplit
  · have hle := length_le_of_splitLast? hsplit ((congrArg String.toList hq').trans q'.toList_text)
    simpa only [String.length_toList, String.length_ofList] using hle

theorem Splits.unique (h : q.Splits s) (h' : q'.Splits s) : q = q' := by
  have hlength : q.type.toList.length = q'.type.toList.length := by
    simpa only [String.length_toList] using le_antisymm (h'.2 q h.1) (h.2 q' h'.1)
  have htext := congrArg String.toList (h.1.symm.trans h'.1)
  rw [toList_text, toList_text, List.append_assoc, List.append_assoc] at htext
  obtain ⟨htype, hrest⟩ := List.append_inj htext hlength
  have hfield := List.append_cancel_left hrest
  cases q
  cases q'
  rw [FieldQuery.mk.injEq]
  exact ⟨String.toList_injective htype, String.toList_injective hfield⟩

theorem ofString?_eq_some_iff : ofString? s = some q ↔ q.Splits s := by
  refine ⟨splits_of_ofString?, fun h => ?_⟩
  cases hread : ofString? s with
  | none =>
    refine absurd ⟨q.type.toList, q.field.toList, ?_⟩ (ofString?_eq_none_iff.1 hread)
    rw [h.1, toList_text]
    rfl
  | some q' => rw [h.unique (splits_of_ofString? hread)]

/-- A query for a field without `:` in its name is split in front of that name, whatever the name
of the type. -/
theorem splits_text (h : ':' ∉ q.field.toList) : q.Splits q.text := by
  refine ⟨rfl, fun q' hq' => ?_⟩
  have htext := congrArg String.toList hq'
  rw [toList_text, toList_text, List.append_assoc, List.append_assoc] at htext
  rw [← String.length_toList, ← String.length_toList]
  rcases List.append_eq_append_iff.1 htext with ⟨behind, htype, hrest⟩ | ⟨behind, htype, -⟩
  · -- The text is split behind the name of the type: the second `:` there is in the field's name.
    rcases behind with - | ⟨c, - | ⟨d, behind⟩⟩
    · simp [htype]
    · simp only [List.cons_append, List.nil_append, List.cons.injEq] at hrest
      exact absurd (hrest.2.2 ▸ List.mem_cons_self) h
    · simp only [List.cons_append, List.nil_append, List.cons.injEq] at hrest
      exact absurd (hrest.2.2 ▸ by simp) h
  · rw [htype, List.length_append]
    exact Nat.le_add_right ..

end FieldQuery

/-! ## Fields in their types -/

namespace Multiboot.TypeLayout

/-- The bytes of a run of fields. -/
def bytes (fields : List (String × FieldType)) : Nat :=
  (fields.map fun field => field.2.size).sum

/-- The first field of this name has this type, and the fields in front of it take the bytes up to
`offset`. -/
def FieldAt (layout : TypeLayout) (name : String) (offset : Nat) (type : FieldType) : Prop :=
  ∃ before after, layout.fields = before ++ (name, type) :: after ∧
    (∀ field ∈ before, field.1 ≠ name) ∧ offset = bytes before

variable {layout : TypeLayout} {name name' : String} {offset offset' : Nat}
  {type type' : FieldType} {fields : List (String × FieldType)}

theorem offsetFrom_eq_some_iff {start : Nat} : offsetFrom start name fields = some offset ↔
    ∃ before type after, fields = before ++ (name, type) :: after ∧
      (∀ field ∈ before, field.1 ≠ name) ∧ offset = start + bytes before := by
  -- By induction on the fields, with the offset at which the first of them starts.
  induction fields generalizing start with
  | nil => simp [offsetFrom]
  | cons field fields ih =>
    obtain ⟨first, type⟩ := field
    rw [offsetFrom]
    by_cases hfirst : first = name
    · rw [if_pos hfirst]
      constructor
      · rintro ⟨⟩
        exact ⟨[], type, fields, by rw [hfirst]; rfl, nofun, rfl⟩
      -- Nothing can stand in front of a field that already has the name.
      · rintro ⟨before, type', after, hfields, hbefore, rfl⟩
        cases before with
        | nil => rfl
        | cons field before =>
          cases hfields
          exact absurd hfirst (hbefore _ List.mem_cons_self)
    · rw [if_neg hfirst, ih]
      constructor
      · rintro ⟨before, type', after, rfl, hbefore, rfl⟩
        refine ⟨(first, type) :: before, type', after, rfl, ?_, ?_⟩
        · exact List.forall_mem_cons.2 ⟨hfirst, hbefore⟩
        · simp [bytes, Nat.add_assoc]
      · rintro ⟨before, type', after, hfields, hbefore, rfl⟩
        cases before with
        | nil =>
          cases hfields
          exact absurd rfl hfirst
        | cons field before =>
          cases hfields
          refine ⟨before, type', after, rfl, (List.forall_mem_cons.1 hbefore).2, ?_⟩
          simp [bytes, Nat.add_assoc]

/-- The offset of a field is where it stands. -/
theorem offsetOf?_eq_some_iff :
    layout.offsetOf? name = some offset ↔ ∃ type, layout.FieldAt name offset type := by
  rw [offsetOf?, offsetFrom_eq_some_iff]
  simp only [Nat.zero_add]
  exact exists_comm

theorem offsetOf?_eq_none_iff :
    layout.offsetOf? name = none ↔ ∀ field ∈ layout.fields, field.1 ≠ name := by
  rw [offsetOf?]
  generalize 0 = start
  induction layout.fields generalizing start with
  | nil => simp [offsetFrom]
  | cons field fields ih =>
    rw [offsetFrom, List.forall_mem_cons, ← ih (start + field.2.size)]
    by_cases hfirst : field.1 = name <;> simp [hfirst]

theorem exists_fieldAt (h : name ∈ layout.fields.map Prod.fst) :
    ∃ offset type, layout.FieldAt name offset type := by
  cases hoffset : layout.offsetOf? name with
  | some offset => exact ⟨offset, offsetOf?_eq_some_iff.1 hoffset⟩
  | none =>
    obtain ⟨field, hfield, rfl⟩ := List.mem_map.1 h
    exact absurd rfl (offsetOf?_eq_none_iff.1 hoffset field hfield)

namespace FieldAt

theorem stop_le (h : layout.FieldAt name offset type) : offset + type.size ≤ bytes layout.fields := by
  obtain ⟨before, after, hfields, -, rfl⟩ := h
  rw [hfields]
  simp [bytes]

/-- Of two fields of different names, one ends in front of the other. -/
theorem stop_le_or (h : layout.FieldAt name offset type) (h' : layout.FieldAt name' offset' type')
    (hne : name ≠ name') : offset + type.size ≤ offset' ∨ offset' + type'.size ≤ offset := by
  obtain ⟨before, after, hfields, -, rfl⟩ := h
  obtain ⟨before', after', hfields', -, rfl⟩ := h'
  rcases List.append_eq_append_iff.1 (hfields.symm.trans hfields') with
    ⟨between, rfl, hbetween⟩ | ⟨between, rfl, hbetween⟩
  · cases between with
    | nil =>
      cases hbetween
      exact absurd rfl hne
    | cons field between =>
      cases hbetween
      exact .inl (by simp [bytes])
  · cases between with
    | nil =>
      cases hbetween
      exact absurd rfl hne
    | cons field between =>
      cases hbetween
      exact .inr (by simp [bytes])

theorem disjoint (h : layout.FieldAt name offset type) (h' : layout.FieldAt name' offset' type')
    (hne : name ≠ name') :
    Disjoint (Set.Ico offset (offset + type.size)) (Set.Ico offset' (offset' + type'.size)) := by
  rw [Set.Ico_disjoint_Ico]
  have := h.stop_le_or h' hne
  omega

end FieldAt

end Multiboot.TypeLayout

/-! ## Registered layouts -/

/-- The layouts that were registered, the last one first. -/
def History.layouts : History → List TypeLayout
  | [] => []
  | ⟨.registerType layout, .ok _⟩ :: history => layout :: layouts history
  | _ :: history => layouts history

/-- The layout was registered, and no other one of its name after it. -/
def History.RegisteredLast (history : History) (type : String) (layout : TypeLayout) : Prop :=
  layout.name = type ∧ ∃ later earlier, history.layouts = later ++ layout :: earlier ∧
    ∀ other ∈ later, other.name ≠ type

variable {history : History} {s : Session}

theorem Run.types_eq (run : Run history s) : s.types = history.layouts := by
  refine run.invariant rfl (fun _ _ ih step => ?_) (fun {_ _ c _} _ _ ih herror => ?_)
  · cases step with
    | registerType layout => exact congrArg (layout :: ·) ih
    | _ => exact ih
  · cases c with
    | registerType => cases herror
    | _ => exact ih

/-- The layout that a session has for a name is the one registered last under it. -/
theorem Run.find?_types_eq_some_iff (run : Run history s) {type : String} {layout : TypeLayout} :
    s.types.find? (·.name == type) = some layout ↔ history.RegisteredLast type layout := by
  rw [run.types_eq, List.find?_eq_some_iff_append, History.RegisteredLast, beq_iff_eq]
  simp

/-! ## Answers -/

namespace Session

/-- The offset that a session knows for a field, if it knows one. -/
def offsetOf? (s : Session) (q : FieldQuery) : Option Nat :=
  (s.types.find? (·.name == q.type)).bind (·.offsetOf? q.field)

variable {query : String} {offset : Nat} {err : AssemblyError}

theorem fieldOffset_eq (s : Session) (query : String) : s.fieldOffset query =
    match FieldQuery.ofString? query with
    | none => .error (.notAFieldReference query)
    | some q =>
      match s.offsetOf? q with
      | some offset => .ok offset
      | none => .error (.unknownField query) := rfl

theorem fieldOffset_eq_ok : s.fieldOffset query = .ok offset ↔
    ∃ q : FieldQuery, q.Splits query ∧ s.offsetOf? q = some offset := by
  simp only [fieldOffset_eq, ← FieldQuery.ofString?_eq_some_iff]
  cases FieldQuery.ofString? query with
  | none => simp
  | some q =>
    simp only [Option.some.injEq, exists_eq_left']
    cases s.offsetOf? q <;> simp

theorem fieldOffset_eq_error : s.fieldOffset query = .error err ↔
    (¬"::".toList <:+: query.toList ∧ err = .notAFieldReference query) ∨
      ∃ q : FieldQuery, q.Splits query ∧ s.offsetOf? q = none ∧ err = .unknownField query := by
  simp only [fieldOffset_eq, ← FieldQuery.ofString?_eq_some_iff,
    ← FieldQuery.ofString?_eq_none_iff]
  cases FieldQuery.ofString? query with
  | none => simp [eq_comm]
  | some q =>
    simp only [Option.some.injEq, exists_eq_left']
    cases s.offsetOf? q <;> simp [eq_comm]

end Session

section Lookup

variable (run : Run history s) {q : FieldQuery} {offset : Nat}
include run

theorem Run.offsetOf?_eq_some_iff : s.offsetOf? q = some offset ↔
    ∃ layout type, history.RegisteredLast q.type layout ∧
      TypeLayout.FieldAt layout q.field offset type := by
  simp only [Session.offsetOf?, Option.bind_eq_some_iff, run.find?_types_eq_some_iff,
    TypeLayout.offsetOf?_eq_some_iff, exists_and_left]

theorem Run.offsetOf?_eq_none_iff : s.offsetOf? q = none ↔
    ∀ layout, history.RegisteredLast q.type layout →
      ∀ field ∈ layout.fields, field.1 ≠ q.field := by
  simp only [Session.offsetOf?, Option.bind_eq_none_iff, run.find?_types_eq_some_iff,
    TypeLayout.offsetOf?_eq_none_iff]

end Lookup

/-- How a session answers queries for fields after a run. -/
structure FieldAnswers (history : History) (s : Session) : Prop where
  /-- A query is refused as such exactly if it does not hold `::`. -/
  refused : ∀ query query', s.fieldOffset query = .error (.notAFieldReference query') ↔
    query' = query ∧ ¬"::".toList <:+: query.toList
  /-- The answer is where the field stands, behind the last `::`, in the layout registered last
  under the name in front of it. -/
  answered : ∀ query offset, s.fieldOffset query = .ok offset ↔
    ∃ (q : FieldQuery) (layout : TypeLayout) (type : FieldType), q.Splits query ∧
      history.RegisteredLast q.type layout ∧ layout.FieldAt q.field offset type
  /-- A field is unknown exactly if there is no such layout, or no such field in it. -/
  unknown : ∀ query query', s.fieldOffset query = .error (.unknownField query') ↔
    query' = query ∧ ∃ q : FieldQuery, q.Splits query ∧
      ∀ layout, history.RegisteredLast q.type layout → ∀ field ∈ layout.fields, field.1 ≠ q.field
  /-- There is no other error. -/
  failed : ∀ query err, s.fieldOffset query = .error err →
    err = .notAFieldReference query ∨ err = .unknownField query
  /-- A field without `:` in its name is found in its type, whatever the name of the type. -/
  found : ∀ type layout name, history.RegisteredLast type layout →
    name ∈ layout.fields.map Prod.fst → ':' ∉ name.toList →
      ∃ offset fieldType, s.fieldOffset (type ++ "::" ++ name) = .ok offset ∧
        layout.FieldAt name offset fieldType
  /-- Fields lie in their type, and those of different names do not overlap. -/
  apart : ∀ (layout : TypeLayout) name offset type, layout.FieldAt name offset type →
    offset + type.size ≤ TypeLayout.bytes layout.fields ∧
      ∀ name' offset' type', layout.FieldAt name' offset' type' → name ≠ name' →
        Disjoint (Set.Ico offset (offset + type.size)) (Set.Ico offset' (offset' + type'.size))

/-- **After every run, a field has the offset that its type gave it last.** -/
theorem Run.fieldAnswers (run : Run history s) : FieldAnswers history s where
  refused query query' := by
    rw [Session.fieldOffset_eq_error]
    simp [and_comm]
  answered query offset := by
    rw [Session.fieldOffset_eq_ok]
    simp only [run.offsetOf?_eq_some_iff, exists_and_left]
  unknown query query' := by
    rw [Session.fieldOffset_eq_error]
    constructor
    · rintro (⟨-, ⟨⟩⟩ | ⟨q, hsplits, hnone, ⟨⟩⟩)
      exact ⟨rfl, q, hsplits, run.offsetOf?_eq_none_iff.1 hnone⟩
    · rintro ⟨rfl, q, hsplits, hnone⟩
      exact .inr ⟨q, hsplits, run.offsetOf?_eq_none_iff.2 hnone, rfl⟩
  failed query err h := by
    rcases Session.fieldOffset_eq_error.1 h with ⟨-, herr⟩ | ⟨-, -, -, herr⟩
    · exact .inl herr
    · exact .inr herr
  found type layout name hlayout hname hcolon := by
    obtain ⟨offset, fieldType, hfield⟩ := TypeLayout.exists_fieldAt hname
    refine ⟨offset, fieldType, ?_, hfield⟩
    -- The name has no colon, so the last `::` of the query is the one in front of it.
    have hsplits : (FieldQuery.mk type name).Splits (type ++ "::" ++ name) :=
      FieldQuery.splits_text hcolon
    exact Session.fieldOffset_eq_ok.2
      ⟨_, hsplits, run.offsetOf?_eq_some_iff.2 ⟨layout, fieldType, hlayout, hfield⟩⟩
  apart layout name offset type h :=
    ⟨h.stop_le, fun _ _ _ h' hne => h.disjoint h' hne⟩

/-- A run that registers two types, one of them nested in the other by name and with a field named
twice, and then the other one again. -/
theorem Run.fieldAnswers_nested : ∃ (history : History) (s : Session),
    history.map Event.call =
      [.registerType ⟨"Task", [("state", .u1), ("next", .u4)]⟩,
        .registerType ⟨"Task::Queue:", [("head", .i8), ("size", .u2), ("head", .u4)]⟩,
        .registerType ⟨"Task", [("next", .u4)]⟩] ∧
    s.fieldOffset "Task::next" = .ok 1 ∧ s.fieldOffset "Task::Queue:::size" = .ok 8 ∧
    FieldAnswers history s := by
  have first := Run.start.succeed (c := .registerType ⟨"Task", [("next", .u4)]⟩) nofun rfl
  have nested := first.succeed
    (c := .registerType ⟨"Task::Queue:", [("head", .i8), ("size", .u2), ("head", .u4)]⟩) nofun rfl
  have again := nested.succeed
    (c := .registerType ⟨"Task", [("state", .u1), ("next", .u4)]⟩) nofun rfl
  exact ⟨_, _, rfl, by decide, by decide, Run.fieldAnswers again⟩

end BootImage
