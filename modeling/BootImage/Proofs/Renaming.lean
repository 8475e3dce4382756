import BootImage.Proofs.Correspondence
import BootImage.Proofs.LabelNames

/-!
# Renaming labels

Four notions of equal names meet in a link: two definitions clash if they are spelled the same, a
reference finds the first definition that is the same up to letter case, and so do the marker and a
look-up in the finished image. A renaming that respects names up to letter case, and keeps the
spellings apart that a stream defines, respects all four, so the renamed stream links alike.
References may be in any letter case.

* `Entry.Renamed` — an entry with its label renamed and its references respelled.
* `Renames` — what a renaming of a stream has to respect.
* `Renames.get?_eq` — references find the entry that they found before.
* `Renames.corresponds` — the entries of the two streams correspond.
* `link_renamed` — linking does not depend on what labels are called.
-/

namespace BootImage

open Text

variable (ρ : String → String)

/-- A reference to the renamed label, in any letter case. -/
def RefersTo (name name' : String) : Prop :=
  sameName (ρ name) name' = true

instance (name name' : String) : Decidable (RefersTo ρ name name') :=
  inferInstanceAs (Decidable (_ = true))

/-- Two data values that differ at most in how a reference is spelled. -/
inductive DataValue.Renamed : DataValue → DataValue → Prop
  | bytes (bs : List UInt8) : Renamed (.bytes bs) (.bytes bs)
  | word (w : UInt16) : Renamed (.word w) (.word w)
  | dword (d : UInt32) : Renamed (.dword d) (.dword d)
  | address {name name' : String} :
      RefersTo ρ name name' → Renamed (.address name) (.address name')

/-- An entry with its label renamed, and with its references renamed in any letter case. -/
inductive Entry.Renamed : Entry → Entry → Prop
  | bits (mode : Mode) : Renamed (.bits mode) (.bits mode)
  | org (origin : UInt32) : Renamed (.org origin) (.org origin)
  | align (boundary : UInt32) : Renamed (.align boundary) (.align boundary)
  | times (length : UInt32) (fill : UInt8) : Renamed (.times length fill) (.times length fill)
  | offset (target : UInt32) : Renamed (.offset target) (.offset target)
  | label (name : String) : Renamed (.label name) (.label (ρ name))
  | data (label : Option String) {v v' : DataValue} :
      v.Renamed ρ v' → Renamed (.data label v) (.data (label.map ρ) v')
  | instruction {i i' : Instruction} :
      i.Respelled (RefersTo ρ) i' → Renamed (.instruction i) (.instruction i')

/-- A renaming of the labels of a stream, under which names are the same up to letter case exactly
if they were before, and no two spellings that the stream defines become one. -/
structure Renames (code code' : Code) : Prop where
  sameName_eq : ∀ a b, sameName (ρ a) (ρ b) = sameName a b
  injective : ∀ d ∈ code, ∀ d' ∈ code, ∀ a b, d.label? = some a → d'.label? = some b →
    ρ a = ρ b → a = b
  entries : List.Forall₂ (Entry.Renamed ρ) code code'

/-! ## The labels of an instruction -/

namespace Instruction.Respelled

variable {R : String → String → Prop} {i i' : Instruction} (h : i.Respelled R i')
include h

theorem soleLabel? : Option.Rel R i.soleLabel? i'.soleLabel? := by
  obtain ⟨mnemonic, operands⟩ := i
  obtain ⟨mnemonic', operands'⟩ := i'
  rcases h.operands with _ | ⟨hop, _ | ⟨hsecond, hrest⟩⟩
  · exact .none
  · cases hop with
    | label hname => exact .some hname
    | _ => exact .none
  · cases hop <;> exact .none

theorem branchTarget? : Option.Rel R i.branchTarget? i'.branchTarget? := by
  rw [Instruction.branchTarget?, Instruction.branchTarget?, h.mnemonic]
  split
  · exact h.soleLabel?
  · exact .none

theorem isShrinkable_eq : i'.isShrinkable = i.isShrinkable := by
  rw [isShrinkable, isShrinkable, h.mnemonic]
  rcases rel_iff.1 h.soleLabel? with ⟨hname, hname'⟩ | ⟨name, name', hname, hname', -⟩
  · rw [hname, hname']
  · rw [hname, hname']
    rfl

theorem absoluteLabel? : Option.Rel R i.absoluteLabel? i'.absoluteLabel? := by
  rw [Instruction.absoluteLabel?, Instruction.absoluteLabel?, h.mnemonic]
  split
  · exact .none
  · refine rel_findSome? h.operands ?_
    rintro op op' hop
    cases hop with
    | label hname => exact .some hname
    | _ => exact .none

theorem memory? : Option.Rel (Memory.Respelled R) i.memory? i'.memory? := by
  refine rel_findSome? h.operands ?_
  rintro op op' hop
  cases hop with
  | memory hm => exact .some hm
  | _ => exact .none

end Instruction.Respelled

theorem Memory.Respelled.labelRef? {R : String → String → Prop} {m m' : Memory}
    (h : m.Respelled R m') :
    Option.Rel (fun ref ref' => ref'.2 = ref.2 ∧ R ref.1 ref'.1) m.labelRef? m'.labelRef? := by
  have hdisplacement := h.displacement
  unfold Memory.labelRef?
  generalize m.displacement = d, m'.displacement = d' at hdisplacement
  cases hdisplacement with
  | literal value => exact .none
  | label delta hname => exact .some ⟨rfl, hname⟩

/-! ## Entries -/

namespace Entry.Renamed

variable {ρ} {e e' : Entry} (h : e.Renamed ρ e')
include h

theorem label?_eq : e'.label? = e.label?.map ρ := by
  cases h with
  | data label hv => cases label <;> rfl
  | _ => rfl

theorem originAfter_eq : e'.originAfter = e.originAfter := by
  cases h <;> rfl

theorem reference? :
    Option.Rel (fun ref ref' => ref'.kind = ref.kind ∧ RefersTo ρ ref.label ref'.label)
      e.reference? e'.reference? := by
  cases h with
  | @instruction i i' hi =>
    simp only [Entry.reference?]
    rcases rel_iff.1 hi.branchTarget? with ⟨hname, hname'⟩ | ⟨name, name', hname, hname', htarget⟩
    · rw [hname, hname']
      rcases rel_iff.1 hi.absoluteLabel? with ⟨hlabel, hlabel'⟩ | ⟨_, _, hlabel, hlabel', htarget⟩
      · rw [hlabel, hlabel']
        exact .none
      · rw [hlabel, hlabel']
        exact .some ⟨rfl, htarget⟩
    · rw [hname, hname']
      exact .some ⟨rfl, htarget⟩
  | data label hv =>
    cases hv with
    | address hname => exact .some ⟨rfl, hname⟩
    | _ => exact .none
  | _ => exact .none

theorem memoryLabel? :
    Option.Rel (fun ref ref' => ref'.2 = ref.2 ∧ RefersTo ρ ref.1 ref'.1)
      e.memoryLabel? e'.memoryLabel? := by
  cases h with
  | @instruction i i' hi =>
    simp only [Entry.memoryLabel?, Entry.memory?]
    rcases rel_iff.1 hi.memory? with ⟨hm, hm'⟩ | ⟨m, m', hm, hm', hmemory⟩
    · rw [hm, hm']
      exact .none
    · rw [hm, hm']
      exact hmemory.labelRef?
  | _ => exact .none

/-- A renamed entry takes the same space. -/
theorem size {c c' : Cursor} (hoffset : c'.offset = c.offset) (hmode : c'.mode = c.mode)
    (form : BranchForm) : SameOutcome (c.size e form) (c'.size e' form) := by
  rw [Cursor.size_congr hoffset hmode]
  cases h with
  | instruction hi => exact hi.length ..
  | data label hv => cases hv <;> exact .refl _
  | _ => exact .refl _

/-- A renamed entry writes the same bytes for the same values of its labels. -/
theorem chunk (p : Place) (r : Resolution) :
    SameOutcome ({ p with entry := e }.chunk r) ({ p with entry := e' }.chunk r) := by
  cases h with
  | instruction hi => exact hi.encode _
  | data label hv =>
    cases hv with
    | address hname =>
      show SameOutcome (DataValue.encode (.address _) r.target)
        (DataValue.encode (.address _) r.target)
      cases r.target with
      | none => exact .error rfl
      | some value => exact .refl _
    | _ => exact .refl _
  | _ => exact .refl _

end Entry.Renamed

/-! ## Streams -/

variable {ρ}

theorem filterMap_label?_of_renamed {code code' : Code}
    (h : List.Forall₂ (Entry.Renamed ρ) code code') :
    code'.filterMap Entry.label? = (code.filterMap Entry.label?).map ρ := by
  induction h with
  | nil => rfl
  | @cons e e' code code' he _ ih =>
    rw [List.filterMap_cons, List.filterMap_cons, he.label?_eq, ih]
    cases e.label? <;> rfl

theorem firstOrigin_of_renamed {code code' : Code}
    (h : List.Forall₂ (Entry.Renamed ρ) code code') : firstOrigin code' = firstOrigin code := by
  induction h with
  | nil => rfl
  | cons he _ ih =>
    cases he with
    | org origin => rfl
    | _ => exact ih

theorem refersTo_self (ρ : String → String) (name : String) : RefersTo ρ name (ρ name) := by
  simp [RefersTo, sameName]

namespace Renames

variable {code code' : Code} {index index' : LabelIndex} (h : Renames ρ code code')
include h

/-- A definition is found by a renamed reference exactly if it was found before. -/
theorem defines_eq {e e' : Entry} (he : e.Renamed ρ e') {name name' : String}
    (hname : RefersTo ρ name name') : e'.defines name' = e.defines name := by
  have hfold : foldCase (ρ name) = foldCase name' := by simpa [RefersTo, sameName] using hname
  rw [Entry.defines, Entry.defines, he.label?_eq]
  cases e.label? with
  | none => rfl
  | some label =>
    show sameName (ρ label) name' = sameName label name
    rw [← h.sameName_eq label name, sameName, sameName, hfold]

theorem findIdx?_eq {name name' : String} (hname : RefersTo ρ name name') :
    code'.findIdx? (·.defines name') = code.findIdx? (·.defines name) :=
  forall₂_findIdx? (h.entries.imp fun _ _ he => h.defines_eq he hname)

theorem nodup_iff :
    (code'.filterMap Entry.label?).Nodup ↔ (code.filterMap Entry.label?).Nodup := by
  rw [filterMap_label?_of_renamed h.entries]
  refine ⟨List.Nodup.of_map ρ, fun hnodup => hnodup.map_on ?_⟩
  intro a ha b hb heq
  obtain ⟨d, hd, hlabel⟩ := List.mem_filterMap.1 ha
  obtain ⟨d', hd', hlabel'⟩ := List.mem_filterMap.1 hb
  exact h.injective d hd d' hd' a b hlabel hlabel' heq

/-- The renamed labels are indexed exactly if the labels are. -/
theorem build_alike :
    Alike AssemblyError.SameKind (fun _ _ => True) (LabelIndex.build code)
      (LabelIndex.build code') := by
  -- Spellings repeat in one stream exactly if they do in the other.
  have hiff := h.nodup_iff
  rw [← LabelIndex.exists_build_iff, ← LabelIndex.exists_build_iff] at hiff
  cases hindex : LabelIndex.build code with
  | ok index =>
    obtain ⟨index', hindex'⟩ := hiff.2 ⟨index, hindex⟩
    rw [hindex']
    exact .ok trivial
  | error err =>
    cases hindex' : LabelIndex.build code' with
    | ok index' =>
      obtain ⟨index, hok⟩ := hiff.1 ⟨index', hindex'⟩
      rw [hindex] at hok
      cases hok
    | error err' =>
      obtain ⟨name, first, second, rfl⟩ := LabelIndex.error_of_build hindex
      obtain ⟨name', first', second', rfl⟩ := LabelIndex.error_of_build hindex'
      exact .error rfl

theorem originAfter_eq :
    List.Forall₂ (fun e e' : Entry => e'.originAfter = e.originAfter) code code' :=
  h.entries.imp fun _ _ he => he.originAfter_eq

section Indexed

variable (hindex : LabelIndex.build code = .ok index)
  (hindex' : LabelIndex.build code' = .ok index')
include hindex hindex'

/-- A renamed reference finds the entry that the reference found. -/
theorem get?_eq {name name' : String} (hname : RefersTo ρ name name') :
    index'.get? name' = index.get? name := by
  rw [LabelIndex.get?_build hindex, LabelIndex.get?_build hindex', h.findIdx?_eq hname]

theorem sameTarget {name name' : String} (hname : RefersTo ρ name name') :
    SameTarget AssemblyError.SameKind index index' name name' :=
  ⟨h.get?_eq hindex hindex' hname, rfl⟩

/-- The entries of the two streams correspond. -/
theorem corresponds :
    List.Forall₂ (Entry.Corresponds AssemblyError.SameKind index index') code code' := by
  refine h.entries.imp fun e e' he => ⟨?size, ?mode, ?shrinkable, ?reference, ?memory, he.chunk⟩
  case size => exact fun c c' form hoffset hmode => he.size hoffset hmode form
  case mode =>
    intro mode
    cases he <;> rfl
  case shrinkable =>
    cases he with
    | instruction hi => exact hi.isShrinkable_eq
    | _ => rfl
  case reference =>
    exact rel_mono he.reference? fun _ _ href => ⟨href.1, h.sameTarget hindex hindex' href.2⟩
  case memory =>
    exact rel_mono he.memoryLabel? fun _ _ href => ⟨href.1, h.sameTarget hindex hindex' href.2⟩

theorem writtenEntries_alike {marker marker' : Option String}
    (hmarker : Option.Rel (RefersTo ρ) marker marker') :
    SameOutcome (writtenEntries code index marker) (writtenEntries code' index' marker') := by
  rcases rel_iff.1 hmarker with ⟨rfl, rfl⟩ | ⟨name, name', rfl, rfl, hname⟩
  · exact .ok h.entries.length_eq
  · simp only [writtenEntries, LabelIndex.require, h.get?_eq hindex hindex' hname]
    cases index.get? name with
    | none => exact .error rfl
    | some position => exact .refl _

end Indexed

end Renames

/-- **Linking does not depend on what labels are called.** If the labels of a stream are renamed,
so that names are the same up to letter case exactly if they were before and no two spellings that
the stream defines become one, and every reference is to the renamed label in any letter case, then
the renamed stream links exactly if the stream does, to the same bytes, and every label is where it
was under its new name. If both fail, then with the same kind of error. -/
theorem link_renamed {code code' : Code} {marker marker' : Option String}
    (h : Renames ρ code code') (hmarker : Option.Rel (RefersTo ρ) marker marker') :
    Alike AssemblyError.SameKind
      (fun image image' => image'.bytes = image.bytes ∧ image'.origin = image.origin ∧
        image'.passes = image.passes ∧ image'.shrunk = image.shrunk ∧
        ∀ name, image'.label? (ρ name) = image.label? name)
      (link code marker) (link code' marker') := by
  have hlink : Alike AssemblyError.SameKind (fun image image' => image'.bytes = image.bytes ∧
      image'.passes = image.passes ∧ image'.shrunk = image.shrunk)
      (link code marker) (link code' marker') := by
    refine link_alike AssemblyError.SameKind.refl h.build_alike ?_ fun _ _ _ => h.originAfter_eq
    intro index index' hindex hindex'
    exact ⟨h.corresponds hindex hindex', h.writtenEntries_alike hindex hindex' hmarker⟩
  refine hlink.mono fun image image' himage himage' ⟨hbytes, hpasses, hshrunk⟩ =>
    ⟨hbytes, ?_, hpasses, hshrunk, fun name => ?_⟩
  · rw [origin_of_link himage, origin_of_link himage', firstOrigin_of_renamed h.entries]
  · obtain ⟨index, -, -, hindex, -⟩ := link_eq_ok.1 himage
    obtain ⟨index', -, -, hindex', -⟩ := link_eq_ok.1 himage'
    obtain ⟨r, r', chunks, chunks', -, hr, hlinked, hlinked', -⟩ :=
      linked_of_links AssemblyError.SameKind.refl hindex hindex' (h.corresponds hindex hindex')
        himage himage'
    -- A renaming leaves the origins as they are, so addresses agree as well as offsets.
    have horigins := sameOrigins_layFrom h.originAfter_eq rfl hlinked.laidOut hlinked'.laidOut
    have hname := h.get?_eq hindex hindex' (refersTo_self ρ name)
    rcases rel_iff.1 (hlinked.label?_rel hlinked' hr.layout hname) with
      ⟨hlabel, hlabel'⟩ | ⟨label, label', hlabel, hlabel', -, hsame⟩
    · rw [hlabel, hlabel']
    · rw [hlabel, hlabel', hsame horigins]

/-- An underscore in front of every name, and references in other letter cases. -/
theorem link_renamed_underscore :
    ∃ image image', link [.label "Start", .instruction ⟨.jmp, [.label "start"]⟩, .label "bss",
        .data none (.address "Start")] (some "BSS") = .ok image ∧
      link [.label "_Start", .instruction ⟨.jmp, [.label "_START"]⟩, .label "_bss",
        .data none (.address "_start")] (some "_Bss") = .ok image' ∧
      image'.bytes = image.bytes ∧ image'.label? "_start" = image.label? "start" := by
  have himage : link [.label "Start", .instruction ⟨.jmp, [.label "start"]⟩, .label "bss",
      .data none (.address "Start")] (some "BSS") = .ok _ := rfl
  have himage' : link [.label "_Start", .instruction ⟨.jmp, [.label "_START"]⟩, .label "_bss",
      .data none (.address "_start")] (some "_Bss") = .ok _ := rfl
  have hrenames : Renames ("_" ++ ·)
      [.label "Start", .instruction ⟨.jmp, [.label "start"]⟩, .label "bss",
        .data none (.address "Start")]
      [.label "_Start", .instruction ⟨.jmp, [.label "_START"]⟩, .label "_bss",
        .data none (.address "_start")] := by
    refine ⟨fun a b => ?_, fun _ _ _ _ a b _ _ heq => ?_, ?_⟩
    · simp [sameName, foldCase]
    · simpa using heq
    · have hjump : RefersTo ("_" ++ ·) "start" "_START" := by decide
      have haddress : RefersTo ("_" ++ ·) "Start" "_start" := by decide
      exact .cons (.label "Start") (.cons (.instruction ⟨rfl, .cons (.label hjump) .nil⟩)
        (.cons (.label "bss") (.cons (.data none (.address haddress)) .nil)))
  have hmarker : RefersTo ("_" ++ ·) "BSS" "_Bss" := by decide
  obtain ⟨hbytes, -, -, -, hlabels⟩ :=
    (link_renamed hrenames (.some hmarker)).rel_of_ok himage himage'
  exact ⟨_, _, himage, himage', hbytes, hlabels "start"⟩

end BootImage
