import BootImage.Proofs.Runs
import Mathlib.Data.List.Perm.Basic
import Mathlib.Data.List.Nodup

/-!
# Interned texts and generated labels in a run

Texts, resources and comparisons get numbered labels, in whatever order they are asked for. A text
gets its label once and keeps it, and its entry stays where it was put until a composition moves
it from the data into the code. No label is given out twice, not even in another letter case.

* `History.interned`, `History.generated` — the texts and the labels that a run has given out.
* `Run.generated_perm` — the labels of a run are numbered one after the other.
* `Run.entries_perm` — the entries of a run are those of its texts and what else was put there.
* `Run.textDiscipline` — texts, labels and entries of a run belong together.
-/

namespace BootImage

open Text Multiboot

/-! ## Numbered labels -/

namespace Text

theorem sameName_comm (a b : String) : sameName a b = sameName b a := by
  rw [sameName, sameName, Bool.beq_comm]

theorem foldCase_append (a b : String) : foldCase (a ++ b) = foldCase a ++ foldCase b := by
  simp [foldCase, String.toList_append]

theorem toLower_of_isDigit {c : Char} (h : c.isDigit = true) : c.toLower = c := by
  unfold Char.toLower
  refine dif_neg fun hupper => ?_
  have hle : c.val.toNat ≤ 57 :=
    UInt32.le_iff_toNat_le.1 (of_decide_eq_true (Bool.and_eq_true_iff.1 h).2)
  have hge : 65 ≤ c.val.toNat := UInt32.le_iff_toNat_le.1 hupper.1
  omega

/-- Numbers have no letter case. -/
theorem foldCase_toString (n : Nat) : foldCase (toString n) = toString n := by
  have hdigits : (Nat.toDigits 10 n).map Char.toLower = Nat.toDigits 10 n :=
    (List.map_congr_left fun _ h =>
      toLower_of_isDigit (Nat.isDigit_of_mem_toDigits (by decide) (by decide) h)).trans
        (List.map_id _)
  rw [foldCase, Nat.toString_eq_repr, Nat.toList_repr, hdigits, Nat.repr_eq_ofList_toDigits]

/-- A number can be read off its digits. -/
theorem eq_of_toString_eq {m n : Nat} (h : toString m = toString n) : m = n := by
  have hdigits : Nat.toDigits 10 m = Nat.toDigits 10 n := by
    rw [← Nat.toList_repr, ← Nat.toList_repr]
    exact congrArg String.toList h
  calc m = Nat.ofDigitChars 10 (Nat.toDigits 10 m) 0 :=
        (Nat.ofDigitChars_toDigits (by decide) (by decide)).symm
    _ = Nat.ofDigitChars 10 (Nat.toDigits 10 n) 0 := by rw [hdigits]
    _ = n := Nat.ofDigitChars_toDigits (by decide) (by decide)

/-- Numbered names with the same stem are the same name only for the same number. -/
theorem sameName_numbered {stem : String} {m n : Nat} :
    sameName (stem ++ toString m) (stem ++ toString n) = true ↔ m = n := by
  rw [sameName, beq_iff_eq, foldCase_append, foldCase_append, foldCase_toString, foldCase_toString,
    String.append_right_inj]
  exact ⟨eq_of_toString_eq, congrArg toString⟩

end Text

namespace Session

/-- The label of a resource. -/
def resourceName (n : Nat) : String := resourceStem ++ toString n

/-- The label of a comparison. -/
def compareName (n : Nat) : String := compareStem ++ toString n

theorem sameName_resourceName_compareName (m n : Nat) :
    sameName (resourceName m) (compareName n) = false := by
  rw [sameName, beq_eq_false_iff_ne, resourceName, compareName, foldCase_append, foldCase_append]
  intro h
  have hhead := congrArg (fun s => s.toList.head?) h
  simp [foldCase, resourceStem, compareStem] at hhead

/-- The labels that are out once both counters stand at these numbers. -/
def numberedLabels (resources compares : Nat) : List String :=
  (List.range resources).map resourceName ++ (List.range compares).map compareName

theorem numberedLabels_resources (resources compares : Nat) :
    (numberedLabels (resources + 1) compares).Perm
      (resourceName resources :: numberedLabels resources compares) := by
  rw [numberedLabels, List.range_succ, List.map_append]
  exact ((List.perm_append_singleton ..).append_right _)

theorem numberedLabels_compares (resources compares : Nat) :
    (numberedLabels resources (compares + 1)).Perm
      (compareName compares :: numberedLabels resources compares) := by
  rw [numberedLabels, List.range_succ, List.map_append, ← List.append_assoc]
  exact List.perm_append_singleton ..

theorem pairwise_numberedLabels (resources compares : Nat) :
    (numberedLabels resources compares).Pairwise (sameName · · = false) := by
  have hstem (stem : String) (count : Nat) :
      ((List.range count).map fun n => stem ++ toString n).Pairwise (sameName · · = false) := by
    rw [List.pairwise_map]
    refine List.nodup_range.imp fun hne => ?_
    rw [← Bool.not_eq_true, sameName_numbered]
    exact hne
  refine List.pairwise_append.2 ⟨hstem _ _, hstem _ _, fun a ha b hb => ?_⟩
  obtain ⟨m, -, rfl⟩ := List.mem_map.1 ha
  obtain ⟨n, -, rfl⟩ := List.mem_map.1 hb
  exact sameName_resourceName_compareName m n

end Session

/-! ## Texts, labels and entries of a history -/

/-- The entries that come with a call. -/
def Call.entries : Call → Code
  | appendCode code => code
  | appendData data => data
  | compose program config => Multiboot.compose program config []
  | _ => []

namespace History

/-- The texts that were interned, each once and with its label. -/
def interned : History → List (String × String)
  | [] => []
  | ⟨.intern text, .ok (.label label)⟩ :: history =>
    if text ∈ (interned history).map Prod.fst then interned history
    else (text, label) :: interned history
  | _ :: history => interned history

/-- The labels that were given out, those of texts when they were interned first. -/
def generated : History → List String
  | [] => []
  | ⟨.intern text, .ok (.label label)⟩ :: history =>
    if text ∈ (interned history).map Prod.fst then generated history
    else label :: generated history
  | ⟨.resourceLabel, .ok (.label label)⟩ :: history => label :: generated history
  | ⟨.compareLabel, .ok (.label label)⟩ :: history => label :: generated history
  | _ :: history => generated history

/-- The entries that other calls than `intern` have put into the code and the data. -/
def added : History → Code
  | [] => []
  | ⟨c, .ok _⟩ :: history => added history ++ c.entries
  | ⟨_, .error _⟩ :: history => added history

variable {history : History} {c : Call} {err : AssemblyError}

@[simp] theorem interned_error : interned (⟨c, .error err⟩ :: history) = interned history := by
  cases c <;> rfl

@[simp] theorem generated_error : generated (⟨c, .error err⟩ :: history) = generated history := by
  cases c <;> rfl

theorem added_intern {text : String} {answer : Answer} :
    added (⟨.intern text, .ok answer⟩ :: history) = added history :=
  List.append_nil _

@[simp] theorem added_error : added (⟨c, .error err⟩ :: history) = added history := rfl

theorem nodup_interned (history : History) : (history.interned.map Prod.fst).Nodup := by
  fun_induction interned history with
  | case1 => exact .nil
  | case2 history text label hknown ih => exact ih
  | case3 history text label hnew ih => exact ih.cons hnew
  | case4 e history _ ih => exact ih

theorem mem_of_mem_interned {text label : String} (h : (text, label) ∈ history.interned) :
    ⟨.intern text, .ok (.label label)⟩ ∈ history := by
  fun_induction interned history with
  | case1 => cases h
  | case2 history _ _ _ ih => exact .tail _ (ih h)
  | case3 history _ _ _ ih =>
    rcases List.mem_cons.1 h with heq | h
    · cases heq
      exact .head _
    · exact .tail _ (ih h)
  | case4 e history _ ih => exact .tail _ (ih h)

/-- The label of a text is one that was given out. -/
theorem interned_sublist (history : History) :
    (history.interned.map Prod.snd).Sublist history.generated := by
  fun_induction generated history with
  | case1 => exact .slnil
  | case2 history text label hknown ih =>
    rw [interned, if_pos hknown]
    exact ih
  | case3 history text label hnew ih =>
    rw [interned, if_neg hnew]
    exact ih.cons_cons _
  | case4 label history ih => exact ih.cons _
  | case5 label history ih => exact ih.cons _
  | case6 e history hintern _ _ ih =>
    rwa [interned]
    exact hintern

end History

/-! ## Runs -/

theorem mem_of_lookup {texts : List (String × String)} {text label : String}
    (h : texts.lookup text = some label) : (text, label) ∈ texts := by
  obtain ⟨before, after, rfl, -⟩ := List.lookup_eq_some_iff.1 h
  simp

theorem lookup_eq_none_iff {texts : List (String × String)} {text : String} :
    texts.lookup text = none ↔ text ∉ texts.map Prod.fst := by
  rw [List.lookup_eq_none_iff]
  constructor
  · intro hne hmem
    obtain ⟨p, hp, rfl⟩ := List.mem_map.1 hmem
    simpa using hne p hp
  · intro hnot p hp
    exact bne_iff_ne.2 fun heq => hnot (heq ▸ List.mem_map_of_mem hp)

/-- A text keeps its label. -/
theorem Session.Step.lookup_eq {s s' : Session} {c : Call} {answer : Answer} {text label : String}
    (step : s.Step c answer s') (h : s.texts.lookup text = some label) :
    s'.texts.lookup text = some label := by
  cases step with
  | @internNew text' hnew =>
    have hne : text ≠ text' := by
      rintro rfl
      rw [hnew] at h
      cases h
    show List.lookup text ((text', _) :: s.texts) = some label
    rwa [List.lookup_cons, beq_false_of_ne hne]
  | _ => exact h

/-- Entries are only put in; a composition moves those of the data. -/
theorem Session.Step.entries_perm {s s' : Session} {c : Call} {answer : Answer}
    (step : s.Step c answer s') (hc : ∀ text, c ≠ .intern text) :
    (s'.code ++ s'.data).Perm (s.code ++ s.data ++ c.entries) := by
  cases step with
  | internKnown | internNew => exact absurd rfl (hc _)
  | appendCode | appendData | compose =>
    rw [List.perm_iff_count]
    intro e
    simp only [Session.appendCode, Session.appendData, compose.composed, Multiboot.compose,
      Call.entries, List.count_append, List.count_nil]
    omega
  | _ => exact .of_eq (List.append_nil _).symm

namespace Run

variable {history : History} {s : Session} {text label : String}

theorem texts_eq (run : Run history s) : s.texts = history.interned := by
  refine run.invariant rfl (fun _ _ ih step => ?_) (fun _ _ ih _ => by simpa using ih)
  cases step with
  | internKnown h =>
    rw [History.interned, if_pos, ih]
    rw [← ih]
    exact List.mem_map_of_mem (mem_of_lookup h)
  | internNew h =>
    rw [History.interned, if_neg, ih]
    rwa [← ih, ← lookup_eq_none_iff]
  | _ => exact ih

theorem mem_interned (run : Run history s) (h : s.texts.lookup text = some label) :
    text ∈ history.interned.map Prod.fst :=
  run.texts_eq ▸ List.mem_map_of_mem (mem_of_lookup h)

theorem not_mem_interned (run : Run history s) (h : s.texts.lookup text = none) :
    text ∉ history.interned.map Prod.fst :=
  run.texts_eq ▸ lookup_eq_none_iff.1 h

/-- The labels of a run are numbered one after the other. -/
theorem generated_perm (run : Run history s) :
    history.generated.Perm (Session.numberedLabels s.resources s.compares) := by
  refine run.invariant .nil (fun run _ ih step => ?_) (fun _ _ ih _ => by simpa using ih)
  cases step with
  | internKnown h =>
    rw [History.generated, if_pos (run.mem_interned h)]
    exact ih
  | internNew h =>
    rw [History.generated, if_neg (run.not_mem_interned h)]
    exact (ih.cons _).trans (Session.numberedLabels_resources ..).symm
  | resourceLabel => exact (ih.cons _).trans (Session.numberedLabels_resources ..).symm
  | compareLabel => exact (ih.cons _).trans (Session.numberedLabels_compares ..).symm
  | _ => exact ih

theorem pairwise_generated (run : Run history s) :
    history.generated.Pairwise (sameName · · = false) :=
  (run.generated_perm.pairwise_iff fun h => (sameName_comm ..).trans h).2
    (Session.pairwise_numberedLabels ..)

theorem nodup_labels (run : Run history s) : (s.texts.map Prod.snd).Nodup := by
  rw [run.texts_eq]
  refine (run.pairwise_generated.sublist history.interned_sublist).imp ?_
  rintro label _ h rfl
  simp [sameName] at h

theorem lookup_of_mem (run : Run history s) :
    ∀ outcome, ⟨.intern text, outcome⟩ ∈ history →
      ∃ label, outcome = .ok (.label label) ∧ s.texts.lookup text = some label := by
  refine run.invariant nofun (fun _ _ ih step outcome hmem => ?_)
    (fun _ _ ih herror outcome hmem => ?_)
  · rcases List.mem_cons.1 hmem with heq | hmem
    · cases heq
      cases step with
      | internKnown h => exact ⟨_, rfl, h⟩
      | internNew h => exact ⟨_, rfl, List.lookup_cons_self⟩
    · obtain ⟨label, houtcome, hlookup⟩ := ih outcome hmem
      exact ⟨label, houtcome, step.lookup_eq hlookup⟩
  · rcases List.mem_cons.1 hmem with heq | hmem
    · cases heq
      cases herror
    · exact ih outcome hmem

theorem lookup_eq (run : Run history s) (h : ⟨.intern text, .ok (.label label)⟩ ∈ history) :
    s.texts.lookup text = some label := by
  obtain ⟨_, heq, hlookup⟩ := run.lookup_of_mem _ h
  cases heq
  exact hlookup

theorem mem_interned_iff (run : Run history s) :
    (text, label) ∈ history.interned ↔ ⟨.intern text, .ok (.label label)⟩ ∈ history :=
  ⟨History.mem_of_mem_interned, fun h => run.texts_eq ▸ mem_of_lookup (run.lookup_eq h)⟩

/-- The entries of a run are those of its texts, each once, and those that were put there
otherwise. -/
theorem entries_perm (run : Run history s) : (s.code ++ s.data).Perm
    (history.interned.map (fun (text, label) => Entry.string label text) ++ history.added) := by
  refine run.invariant .nil (fun run _ ih step => ?_) (fun _ _ ih _ => by simpa using ih)
  have hentries := step.entries_perm
  -- Only a new text adds to the entries of the texts; all other calls add what comes with them.
  cases step with
  | internKnown h =>
    rw [History.interned, if_pos (run.mem_interned h), History.added_intern]
    exact ih
  | internNew h =>
    rw [History.interned, if_neg (run.not_mem_interned h), History.added_intern,
      ← List.append_assoc]
    exact (List.perm_append_singleton ..).trans (ih.cons _)
  | _ =>
    rw [History.added, ← List.append_assoc]
    exact (hentries nofun).trans (ih.append_right _)

end Run

/-! ## Texts, labels and entries -/

/-- How texts, labels and entries belong together after a run. -/
structure TextDiscipline (history : History) (s : Session) : Prop where
  /-- Every text that is interned gets a label. -/
  intern_ok : ∀ text outcome, ⟨.intern text, outcome⟩ ∈ history →
    ∃ label, outcome = .ok (.label label)
  /-- Texts are equal exactly if their labels are. -/
  text_eq_iff : ∀ text label text' label', ⟨.intern text, .ok (.label label)⟩ ∈ history →
    ⟨.intern text', .ok (.label label')⟩ ∈ history → (text = text' ↔ label = label')
  /-- No two labels are the same up to letter case. -/
  generated : history.generated.Pairwise (sameName · · = false)
  /-- The texts that were interned, each of them once. -/
  mem_interned : ∀ text label, (text, label) ∈ history.interned ↔
    ⟨.intern text, .ok (.label label)⟩ ∈ history
  nodup_interned : (history.interned.map Prod.fst).Nodup
  /-- For each of them there is one entry, and all others come with other calls. -/
  entries : (s.code ++ s.data).Perm
    (history.interned.map (fun (text, label) =>
      .data (some label) (.bytes (text.toUTF8.data.toList ++ [0]))) ++ history.added)
  /-- A composition moves the entries of the data into the code. -/
  compose : ∀ program config answer s',
    (Call.compose program config).inPlace.run s = .ok answer s' →
      s'.data = [] ∧ s'.code.Perm (s.code ++ s.data ++ Multiboot.compose program config [])
  /-- A text that is interned again keeps its label, and nothing changes. -/
  again : ∀ text label, ⟨.intern text, .ok (.label label)⟩ ∈ history →
    (Call.intern text).inPlace.run s = .ok (.label label) s

/-- **In every run, texts, labels and entries belong together.** -/
theorem Run.textDiscipline {history : History} {s : Session} (run : Run history s) :
    TextDiscipline history s where
  intern_ok text outcome h := by
    obtain ⟨label, houtcome, -⟩ := run.lookup_of_mem outcome h
    exact ⟨label, houtcome⟩
  text_eq_iff text label text' label' h h' := by
    have hlookup := run.lookup_eq h
    have hlookup' := run.lookup_eq h'
    constructor
    · rintro rfl
      exact Option.some.inj (hlookup.symm.trans hlookup')
    · rintro rfl
      exact congrArg Prod.fst (List.inj_on_of_nodup_map run.nodup_labels
        (mem_of_lookup hlookup) (mem_of_lookup hlookup') rfl)
  generated := run.pairwise_generated
  mem_interned _ _ := run.mem_interned_iff
  nodup_interned := history.nodup_interned
  entries := run.entries_perm
  -- A composition moves the data into the code, so no entry is lost or made.
  compose program config answer s' h := by
    have step := Session.perform_eq_ok.1 (Call.inPlace_eq_ok.1 h)
    have hentries := step.entries_perm nofun
    cases step
    exact ⟨rfl, (List.Perm.of_eq (List.append_nil _).symm).trans hentries⟩
  again text label h :=
    Call.inPlace_eq_ok.2 (Session.perform_eq_ok.2 (.internKnown (run.lookup_eq h)))

/-- A run in which a text is interned before and after a composition. -/
theorem Run.textDiscipline_composed : ∃ (history : History) (s : Session),
    history.map Event.call =
      [.intern "on", .compose {} {}, .intern "off", .resourceLabel, .intern "on"] ∧
    s.data = [] ∧ s.texts.map Prod.fst = ["off", "on"] ∧ TextDiscipline history s := by
  have first := Run.start.succeed (c := .intern "on") nofun rfl
  have resource := first.succeed (c := .resourceLabel) nofun rfl
  have second := resource.succeed (c := .intern "off") nofun rfl
  have composed := second.succeed (c := .compose {} {}) nofun rfl
  have again := composed.succeed (c := .intern "on") nofun rfl
  exact ⟨_, _, rfl, rfl, rfl, Run.textDiscipline again⟩

end BootImage
