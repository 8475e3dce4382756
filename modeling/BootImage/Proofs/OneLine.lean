import BootImage.Entry
import Mathlib.Data.List.Basic

/-!
# Texts on one line

A listing gives every entry a line of its own, so the text of an entry must not break the line.
Numbers, registers, mnemonics and directives never do. Names of labels are free, and an entry is on
one line if the names in it are.

* `hexDigits_eq_if`, `mem_hexDigits` — hexadecimal numbers digit by digit.
* `OneLine`, `oneLine_append`, `oneLine_intercalate` — texts without a line break.
* `Entry.names`, `Entry.oneLine_text` — entries on one line.
-/

namespace BootImage

namespace Text

/-! ## Hexadecimal digits -/

/-- The sixteen digits, by value. -/
def upperDigits : List Char :=
  ['0', '1', '2', '3', '4', '5', '6', '7', '8', '9', 'A', 'B', 'C', 'D', 'E', 'F']

/-- The digit of a number below sixteen. -/
def upperDigit (n : Nat) : Char :=
  n.digitChar.toUpper

theorem upperDigit_mem {n : Nat} (h : n < 16) : upperDigit n ∈ upperDigits := by
  revert n
  decide

theorem hexDigits_eq_if (n : Nat) : hexDigits n =
    if n < 16 then [upperDigit n] else hexDigits (n / 16) ++ [upperDigit (n % 16)] := by
  rw [hexDigits, Nat.toDigits_eq_if (by decide)]
  split
  · rfl
  · rw [List.map_append]
    rfl

theorem mem_hexDigits {n : Nat} {c : Char} (h : c ∈ hexDigits n) : c ∈ upperDigits := by
  induction n using Nat.strongRecOn with
  | ind n ih =>
    rw [hexDigits_eq_if] at h
    split at h
    case isTrue hlt => exact List.mem_singleton.1 h ▸ upperDigit_mem hlt
    case isFalse hge =>
      rcases List.mem_append.1 h with hfront | hlast
      · exact ih (n / 16) (by omega) hfront
      · exact List.mem_singleton.1 hlast ▸ upperDigit_mem (Nat.mod_lt _ (by decide))

theorem mem_hexPadded {width n : Nat} {c : Char} (h : c ∈ (hexPadded width n).toList) :
    c ∈ upperDigits := by
  rw [hexPadded, String.toList_ofList] at h
  rcases List.mem_append.1 h with hzero | hdigit
  · rw [List.eq_of_mem_replicate hzero]
    decide
  · exact mem_hexDigits hdigit

/-! ## Texts without a line break -/

/-- The text has no line break. -/
def OneLine (s : String) : Prop :=
  '\n' ∉ s.toList

instance (s : String) : Decidable (OneLine s) :=
  inferInstanceAs (Decidable ('\n' ∉ s.toList))

variable {s t : String} {ts : List String} {n : Nat}

@[simp] theorem oneLine_append : OneLine (s ++ t) ↔ OneLine s ∧ OneLine t := by
  simp [OneLine]

@[simp] theorem oneLine_ofList {cs : List Char} : OneLine (String.ofList cs) ↔ '\n' ∉ cs := by
  rw [OneLine, String.toList_ofList]

@[simp] theorem oneLine_toString : OneLine (toString s) ↔ OneLine s := Iff.rfl

/-- What is in a joined list is in the separator or in one of the parts. -/
theorem mem_of_mem_intercalate {a : Char} {sep : List Char} {parts : List (List Char)}
    (h : a ∈ sep.intercalate parts) : a ∈ sep ∨ ∃ part ∈ parts, a ∈ part := by
  induction parts with
  | nil => cases h
  | cons part parts ih =>
    cases parts with
    | nil => exact .inr ⟨part, List.mem_cons_self, by simpa using h⟩
    | cons part' parts =>
      rw [List.intercalate_cons_cons, List.append_assoc, List.mem_append, List.mem_append] at h
      rcases h with hpart | hsep | hrest
      · exact .inr ⟨part, List.mem_cons_self, hpart⟩
      · exact .inl hsep
      · exact (ih hrest).imp_right fun ⟨q, hq, ha⟩ => ⟨q, List.mem_cons_of_mem _ hq, ha⟩

theorem oneLine_intercalate (hs : OneLine s) (hts : ∀ t ∈ ts, OneLine t) :
    OneLine (s.intercalate ts) := by
  intro h
  rw [String.toList_intercalate] at h
  rcases mem_of_mem_intercalate h with hsep | ⟨part, hpart, hmem⟩
  · exact hs hsep
  · obtain ⟨t, ht, rfl⟩ := List.mem_map.1 hpart
    exact hts t ht hmem

@[simp] theorem oneLine_hex : OneLine (hex n) :=
  oneLine_ofList.2 fun h => absurd (mem_hexDigits h) (by decide)

@[simp] theorem oneLine_hexMarked : OneLine (hexMarked n) :=
  oneLine_append.2 ⟨by decide, oneLine_hex⟩

@[simp] theorem oneLine_hexPadded {width : Nat} : OneLine (hexPadded width n) :=
  fun h => absurd (mem_hexPadded h) (by decide)

@[simp] theorem oneLine_natRepr : OneLine n.repr := by
  rw [Nat.repr_eq_ofList_toDigits, oneLine_ofList]
  intro h
  exact absurd (Nat.isDigit_of_mem_toDigits (by decide) (by decide) h) (by decide)

@[simp] theorem oneLine_intRepr {v : Int} : OneLine v.repr := by
  rw [Int.repr_eq_if]
  split
  · exact oneLine_natRepr
  · exact oneLine_append.2 ⟨by decide, oneLine_natRepr⟩

end Text

open Text

/-! ## Operands and mnemonics -/

@[simp] theorem Register.oneLine_name (r : Register) : OneLine r.name := by
  cases r with
  | general width n => revert n; cases width <;> decide
  | segment s => cases s <;> decide

@[simp] theorem AccessSize.oneLine_name (size : AccessSize) : OneLine size.name := by
  cases size <;> decide

@[simp] theorem Mnemonic.oneLine_name (mnemonic : Mnemonic) : OneLine mnemonic.name := by
  cases mnemonic with
  | arithmetic op | unary op | step op | shift op | table op | plain op => cases op <;> decide
  | jcc condition | setcc condition => cases condition <;> decide
  | _ => decide

namespace Memory

@[simp] theorem oneLine_registerText (m : Memory) : OneLine m.registerText := by
  obtain ⟨size, segment, base, index, scale, displacement⟩ := m
  have hindex (r : Register) : OneLine (if scale = 1 then r.name else s!"{r.name}*{scale}") := by
    split <;> simp +decide
  cases base with
  | none =>
    cases index with
    | none => exact List.not_mem_nil
    | some i => exact hindex i
  | some b =>
    cases index with
    | none => exact b.oneLine_name
    | some i => exact oneLine_append.2 ⟨by simp +decide, hindex i⟩

@[simp] theorem oneLine_signedText (v : Int) : OneLine (signedText v) := by
  unfold signedText
  split
  · simp +decide
  · split <;> simp +decide

/-- The names of labels in the operand. -/
def names (m : Memory) : List String :=
  m.labelRef?.toList.map Prod.fst

theorem oneLine_text {m : Memory} (h : ∀ name ∈ m.names, OneLine name) : OneLine m.text := by
  have hdisplacement : OneLine m.displacementText := by
    unfold displacementText
    cases hm : m.displacement with
    | literal value =>
      dsimp only
      split <;> simp
    | label name delta =>
      have hname : OneLine name := h name (by simp [names, labelRef?, hm])
      dsimp only
      split <;> simp +decide [hname]
  have hsegment : OneLine (m.segment.elim "" fun s => s.name ++ ":") := by
    cases m.segment <;> simp +decide
  simp +decide [text, hsegment, hdisplacement]

end Memory

namespace Operand

/-- The names of labels in the operand. -/
def names : Operand → List String
  | label name => [name]
  | memory m => m.names
  | _ => []

theorem oneLine_immediateText (v : Int) : OneLine (immediateText v) := by
  unfold immediateText
  split
  · simp
  · split <;> simp +decide

theorem oneLine_text {op : Operand} (h : ∀ name ∈ op.names, OneLine name) : OneLine op.text := by
  cases op with
  | register r => exact r.oneLine_name
  | immediate v => exact oneLine_immediateText v
  | memory m => exact m.oneLine_text h
  | label name => exact h name List.mem_cons_self

end Operand

/-! ## Entries -/

/-- The name of a label in the data. -/
def DataValue.names : DataValue → List String
  | address name => [name]
  | _ => []

theorem DataValue.oneLine_text {v : DataValue} (h : ∀ name ∈ v.names, OneLine name) :
    OneLine v.text := by
  cases v with
  | bytes bs =>
    have hbytes : OneLine (", ".intercalate (bs.map fun b => "0x" ++ hexPadded 2 b.toNat)) :=
      oneLine_intercalate (by decide) (by simp +decide)
    exact oneLine_append.2 ⟨by simp +decide [directive], hbytes⟩
  | address name =>
    exact oneLine_append.2 ⟨by simp +decide [directive], h name List.mem_cons_self⟩
  | _ => simp +decide [text, directive]

namespace Entry

/-- The names of labels in the entry. -/
def names : Entry → List String
  | label name => [name]
  | data name value => name.toList ++ value.names
  | instruction i => i.operands.flatMap Operand.names
  | _ => []

theorem oneLine_text {e : Entry} (h : ∀ name ∈ e.names, OneLine name) : OneLine e.text := by
  cases e with
  | label name => exact oneLine_append.2 ⟨h name List.mem_cons_self, by decide⟩
  | data label value =>
    have hvalue : OneLine value.text :=
      DataValue.oneLine_text fun name hname => h name (List.mem_append_right _ hname)
    cases label with
    | none => exact hvalue
    | some name =>
      have hname : OneLine name := h name (List.mem_append_left _ (by simp))
      simp +decide [text, hname, hvalue]
  | instruction i =>
    obtain ⟨mnemonic, operands⟩ := i
    have hoperands : ∀ t ∈ operands.map Operand.text, OneLine t := by
      intro t ht
      obtain ⟨op, hop, rfl⟩ := List.mem_map.1 ht
      exact op.oneLine_text fun name hname => h name (List.mem_flatMap.2 ⟨op, hop, hname⟩)
    cases operands with
    | nil => exact mnemonic.oneLine_name
    | cons op operands =>
      have hjoined := oneLine_intercalate (s := ", ") (by decide) hoperands
      exact oneLine_append.2 ⟨by simp +decide, hjoined⟩
  | bits mode => cases mode <;> decide
  | _ => simp +decide [text]

end Entry

end BootImage
