import BootImage.Proofs.Linked
import Mathlib.Data.Finset.Card
import Mathlib.Data.String.Basic

/-!
# The index and the label table are exact

Labels are kept by their exact spelling to find repeated definitions, by their folded names in the
index, and once more in the table of an image. All of these go back to the definitions in stream
order. The stream is refused for the first definition that repeats a spelling; otherwise every
folded name has one entry, that of its first definition, and the table has these entries in the
order of the UTF-8 bytes of the names.

* `Text.utf8_lt` — names in the order of their characters are in the order of their bytes.
* `Code.FirstRepeat` — the first definition that repeats a spelling.
* `LabelIndex.build_eq_error_iff` — a stream is refused for it, and for nothing else.
* `LabelIndex.size_build` — the index has as many names as there are folded names.
* `LabelTable.pairwise_ofDefinitions`, `LabelTable.mem_ofDefinitions_iff` — the entries of a table.
* `label_table_exact` — the index and the label table hold just the first definitions.
-/

namespace BootImage

open Text

/-! ## The order of names -/

namespace Text

/-- The UTF-8 bytes of a text. -/
def utf8 (s : String) : List UInt8 :=
  s.toUTF8.data.toList

theorem utf8_eq_flatMap (s : String) : utf8 s = s.toList.flatMap String.utf8EncodeChar := by
  rw [utf8, String.toUTF8, ← String.utf8Encode_toList, List.utf8Encode,
    List.toList_data_toByteArray]

theorem ofNat_lt_ofNat {m n : Nat} (hm : m < 256) (hn : n < 256) :
    UInt8.ofNat m < UInt8.ofNat n ↔ m < n := by
  rw [UInt8.lt_iff_toNat_lt, UInt8.toNat_ofNat', UInt8.toNat_ofNat', Nat.mod_eq_of_lt hm,
    Nat.mod_eq_of_lt hn]

theorem ofNat_eq_ofNat {m n : Nat} (hm : m < 256) (hn : n < 256) :
    UInt8.ofNat m = UInt8.ofNat n ↔ m = n := by
  rw [← UInt8.toNat_inj, UInt8.toNat_ofNat', UInt8.toNat_ofNat', Nat.mod_eq_of_lt hm,
    Nat.mod_eq_of_lt hn]

/-- A smaller character has smaller bytes, whatever follows. -/
theorem utf8EncodeChar_append_lt {c d : Char} (h : c < d) (xs ys : List UInt8) :
    String.utf8EncodeChar c ++ xs < String.utf8EncodeChar d ++ ys := by
  have hlt : c.val.toNat < d.val.toNat := h
  have hbound : d.val.toNat < 0x110000 := by
    rcases d.valid with hd | ⟨-, hd⟩
    · exact Nat.lt_trans hd (by decide)
    · exact hd
  -- All bytes are digits of the character to the base 64, the first one marked by the length.
  have hdigits (k : Nat) : k / 4096 = k / 64 / 64 ∧ k / 262144 = k / 64 / 64 / 64 := by omega
  unfold String.utf8EncodeChar
  generalize c.val.toNat = m at hlt ⊢
  generalize d.val.toNat = n at hlt hbound ⊢
  simp only [hdigits]
  split_ifs <;>
    simp (disch := omega) only [List.cons_append, List.nil_append, List.cons_lt_cons_iff,
      ofNat_lt_ofNat, ofNat_eq_ofNat] <;> omega

theorem flatMap_utf8EncodeChar_lt {s t : List Char} (h : s < t) :
    s.flatMap String.utf8EncodeChar < t.flatMap String.utf8EncodeChar := by
  induction h with
  | @nil c t =>
    have hne : String.utf8EncodeChar c ≠ [] := by
      unfold String.utf8EncodeChar
      dsimp only
      split_ifs <;> simp
    obtain ⟨b, bs, hc⟩ := List.exists_cons_of_ne_nil hne
    rw [List.flatMap_nil, List.flatMap_cons, hc]
    exact List.Lex.nil
  | rel hcd =>
    rw [List.flatMap_cons, List.flatMap_cons]
    exact utf8EncodeChar_append_lt hcd _ _
  | cons _ ih =>
    rw [List.flatMap_cons, List.flatMap_cons]
    exact List.append_left_lt ih

/-- Texts in the order of their characters are in the order of their bytes. -/
theorem utf8_lt {s t : String} (h : s < t) : utf8 s < utf8 t := by
  rw [utf8_eq_flatMap, utf8_eq_flatMap]
  exact flatMap_utf8EncodeChar_lt (String.lt_iff_toList_lt.1 h)

end Text

/-! ## Definitions by position -/

/-- The label that the entry at a position defines. -/
def Code.labelAt (code : Code) (i : Nat) : Option String :=
  code[i]?.bind Entry.label?

/-- The definition at `second` is the first one that repeats a spelling, and the definition at
`first` is the first one of that spelling. -/
structure Code.FirstRepeat (code : Code) (name : String) (first second : Nat) : Prop where
  labelAt_second : code.labelAt second = some name
  labelAt_first : code.labelAt first = some name
  lt : first < second
  earliest : ∀ i < first, code.labelAt i ≠ some name
  fresh : ∀ j < second, ∀ i < j, ∀ n, code.labelAt j = some n → code.labelAt i ≠ some n

theorem Code.FirstRepeat.unique {code : Code} {name name' : String}
    {first first' second second' : Nat}
    (h : code.FirstRepeat name first second) (h' : code.FirstRepeat name' first' second') :
    name = name' ∧ first = first' ∧ second = second' := by
  have hsecond : second = second' := by
    rcases Nat.lt_trichotomy second second' with hlt | heq | hgt
    · exact absurd h.labelAt_first (h'.fresh second hlt first h.lt name h.labelAt_second)
    · exact heq
    · exact absurd h'.labelAt_first (h.fresh second' hgt first' h'.lt name' h'.labelAt_second)
  subst hsecond
  have hname : name = name' := Option.some.inj (h.labelAt_second.symm.trans h'.labelAt_second)
  subst hname
  refine ⟨rfl, ?_, rfl⟩
  rcases Nat.lt_trichotomy first first' with hlt | heq | hgt
  · exact absurd h.labelAt_first (h'.earliest first hlt)
  · exact heq
  · exact absurd h'.labelAt_first (h.earliest first' hgt)

namespace LabelIndex

theorem mem_definitionsFrom {code : Code} {position : Nat} {d : Definition} :
    d ∈ definitionsFrom position code ↔
      ∃ i, d.position = position + i ∧ code.labelAt i = some d.name ∧ d.key = foldCase d.name := by
  induction code generalizing position with
  | nil => simp [definitionsFrom, Code.labelAt]
  | cons e code ih =>
    have hrest : d ∈ definitionsFrom (position + 1) code ↔
        ∃ i, d.position = position + (i + 1) ∧ Code.labelAt (e :: code) (i + 1) = some d.name ∧
          d.key = foldCase d.name := by
      rw [ih]
      simp only [Code.labelAt, List.getElem?_cons_succ, Nat.add_assoc, Nat.add_comm 1]
    have hhead : Code.labelAt (e :: code) 0 = e.label? := rfl
    rw [← Nat.or_exists_add_one, ← hrest, hhead, definitionsFrom]
    cases he : e.label? with
    | none => simp
    | some name =>
      obtain ⟨position', name', key⟩ := d
      simp only [List.mem_cons, Definition.mk.injEq, Option.some.injEq, Nat.add_zero]
      refine or_congr_left (and_congr_right fun _ => ?_)
      constructor
      · rintro ⟨rfl, rfl⟩
        exact ⟨rfl, rfl⟩
      · rintro ⟨rfl, rfl⟩
        exact ⟨rfl, rfl⟩

theorem mem_of_labelAt {code : Code} {i : Nat} {name : String} (h : code.labelAt i = some name) :
    ⟨i, name, foldCase name⟩ ∈ definitionsFrom 0 code :=
  mem_definitionsFrom.2 ⟨i, (Nat.zero_add i).symm, h, rfl⟩

theorem pairwise_definitionsFrom (code : Code) (position : Nat) :
    (definitionsFrom position code).Pairwise fun d d' => d.position < d'.position := by
  induction code generalizing position with
  | nil => exact .nil
  | cons e code ih =>
    rw [definitionsFrom]
    split
    · refine List.pairwise_cons.2 ⟨fun d hd => ?_, ih _⟩
      obtain ⟨i, hi, -⟩ := mem_definitionsFrom.1 hd
      show position < d.position
      omega
    · exact ih _

/-! ## Repeated definitions -/

/-- What it means that a repeated spelling is found: the definitions in front of the second one are
all new, and the first one is among them or was seen before. -/
theorem firstRepeat?_eq_some {seen ds : List Definition} {first second : Definition}
    (h : firstRepeat? seen ds = some (first, second)) :
    ∃ before after, ds = before ++ second :: after ∧ first ∈ before ++ seen ∧
      first.name = second.name ∧ (before.map Definition.name).Nodup ∧
      ∀ d ∈ before, ∀ s ∈ seen, s.name ≠ d.name := by
  -- By induction on the definitions left. The names already seen are carried: a definition
  -- is new with respect to them and to those in front of it.
  induction ds generalizing seen with
  | nil => cases h
  | cons d ds ih =>
    rw [firstRepeat?] at h
    cases hfind : seen.find? (·.name == d.name) with
    | some found =>
      rw [hfind] at h
      cases h
      have hname : first.name = second.name := by simpa using List.find?_some hfind
      exact ⟨[], ds, rfl, List.mem_of_find?_eq_some hfind, hname, .nil, by simp⟩
    | none =>
      rw [hfind] at h
      have hd : ∀ s ∈ seen, s.name ≠ d.name := by simpa using hfind
      obtain ⟨before, after, rfl, hfirst, hname, hnodup, hfresh⟩ := ih h
      have hfresh' : d.name ∉ before.map Definition.name := by
        intro hmem
        obtain ⟨d', hd', heq⟩ := List.mem_map.1 hmem
        exact hfresh d' hd' d List.mem_cons_self heq.symm
      refine ⟨d :: before, after, rfl, ?_, hname, List.nodup_cons.2 ⟨hfresh', hnodup⟩, ?_⟩
      · simp only [List.mem_append, List.mem_cons] at hfirst ⊢
        tauto
      · intro d' hd' s hs
        rcases List.mem_cons.1 hd' with rfl | hd'
        · exact hd s hs
        · exact hfresh d' hd' s (List.mem_cons_of_mem _ hs)

/-- The definitions that are reported are the first ones with a repeated spelling. -/
theorem firstRepeat_of_firstRepeat? {code : Code} {first second : Definition}
    (h : firstRepeat? [] (definitionsFrom 0 code) = some (first, second)) :
    code.FirstRepeat second.name first.position second.position := by
  obtain ⟨before, after, hsplit, hfirst, hname, hnodup, -⟩ := firstRepeat?_eq_some h
  rw [List.append_nil] at hfirst
  have hpairwise := pairwise_definitionsFrom code 0
  rw [hsplit, List.pairwise_append] at hpairwise
  obtain ⟨-, hback, hfront⟩ := hpairwise
  -- The scan has met every definition in front of the second one.
  have hmem : ∀ i n, code.labelAt i = some n → i < second.position →
      ⟨i, n, foldCase n⟩ ∈ before := by
    intro i n hi hlt
    have hd := mem_of_labelAt hi
    rw [hsplit, List.mem_append, List.mem_cons] at hd
    rcases hd with hd | rfl | hd
    · exact hd
    · exact absurd hlt (Nat.lt_irrefl _)
    · exact absurd hlt (Nat.lt_asymm ((List.pairwise_cons.1 hback).1 _ hd))
  have hlabel : ∀ d ∈ definitionsFrom 0 code, code.labelAt d.position = some d.name := by
    intro d hd
    obtain ⟨i, hi, hlabel, -⟩ := mem_definitionsFrom.1 hd
    rw [hi, Nat.zero_add, hlabel]
  have hlt : first.position < second.position := hfront first hfirst second List.mem_cons_self
  constructor
  case labelAt_second => exact hlabel second (by simp [hsplit])
  case labelAt_first => rw [← hname]; exact hlabel first (by simp [hsplit, hfirst])
  case lt => exact hlt
  -- The names met before are distinct, so an earlier pair would have ended the scan.
  case earliest =>
    intro i hi hlabel
    have heq := List.inj_on_of_nodup_map hnodup (hmem i _ hlabel (hi.trans hlt)) hfirst hname.symm
    rw [← heq] at hi
    exact Nat.lt_irrefl _ hi
  case fresh =>
    intro j hj i hi n hlabel hlabel'
    have heq := List.inj_on_of_nodup_map hnodup (hmem j n hlabel hj)
      (hmem i n hlabel' (hi.trans hj)) rfl
    cases heq
    exact Nat.lt_irrefl _ hi

/-- If no repeated spelling is found, then every spelling is defined at one position. -/
theorem eq_of_labelAt {code : Code} (h : firstRepeat? [] (definitionsFrom 0 code) = none)
    {i j : Nat} {name : String} (hi : code.labelAt i = some name)
    (hj : code.labelAt j = some name) : i = j :=
  congrArg Definition.position (List.inj_on_of_nodup_map (firstRepeat?_eq_none_iff.1 h).2
    (mem_of_labelAt hi) (mem_of_labelAt hj) rfl)

/-- A stream is refused for the first definition that repeats a spelling, and for nothing else. -/
theorem build_eq_error_iff {code : Code} {err : AssemblyError} :
    build code = .error err ↔ ∃ name first second,
      err = .duplicateLabel name first second ∧ code.FirstRepeat name first second := by
  cases hfound : firstRepeat? [] (definitionsFrom 0 code) with
  | some found =>
    have hfirst := firstRepeat_of_firstRepeat? hfound
    simp only [build, hfound]
    constructor
    · intro h
      cases h
      exact ⟨_, _, _, rfl, hfirst⟩
    · rintro ⟨name, first, second, rfl, h⟩
      obtain ⟨rfl, rfl, rfl⟩ := h.unique hfirst
      rfl
  | none =>
    simp only [build, hfound]
    constructor
    · intro h
      cases h
    · rintro ⟨name, first, second, -, h⟩
      exact absurd h.lt (eq_of_labelAt hfound h.labelAt_first h.labelAt_second).not_lt

theorem exists_build_error_iff {code : Code} :
    (∃ err, build code = .error err) ↔
      ∃ i j name, i < j ∧ code.labelAt i = some name ∧ code.labelAt j = some name := by
  constructor
  · rintro ⟨err, h⟩
    obtain ⟨name, first, second, -, h⟩ := build_eq_error_iff.1 h
    exact ⟨first, second, name, h.lt, h.labelAt_first, h.labelAt_second⟩
  · rintro ⟨i, j, name, hlt, hi, hj⟩
    cases hfound : firstRepeat? [] (definitionsFrom 0 code) with
    | some found =>
      simp only [build, hfound]
      exact ⟨_, rfl⟩
    | none => exact absurd hlt (eq_of_labelAt hfound hi hj).not_lt

/-! ## First definitions -/

theorem keys_definitionsFrom (code : Code) (position : Nat) :
    (definitionsFrom position code).map Definition.key =
      (code.filterMap Entry.label?).map foldCase := by
  rw [← names_definitionsFrom code position, List.map_map]
  refine List.map_congr_left fun d hd => ?_
  obtain ⟨-, -, -, hkey⟩ := mem_definitionsFrom.1 hd
  exact hkey

theorem mem_firstOfKey_iff {ds : List Definition} {d : Definition} :
    d ∈ firstOfKey ds ↔ ds.find? (·.key == d.key) = some d := by
  rw [← find?_firstOfKey]
  constructor
  · intro hd
    have hkeys := nodup_key_firstOfKey ds
    obtain ⟨d', hd'⟩ : ∃ d', (firstOfKey ds).find? (·.key == d.key) = some d' :=
      Option.isSome_iff_exists.1 (List.find?_isSome.2 ⟨d, hd, by simp⟩)
    have hmem := List.mem_of_find?_eq_some hd'
    have hkey : d'.key = d.key := by simpa using List.find?_some hd'
    rw [hd', List.inj_on_of_nodup_map (List.pairwise_map.2 hkeys) hmem hd hkey]
  · exact List.mem_of_find?_eq_some

theorem length_firstOfKey (ds : List Definition) :
    (firstOfKey ds).length = (ds.map Definition.key).toFinset.card := by
  have hkeys : ((firstOfKey ds).map Definition.key).Nodup :=
    List.pairwise_map.2 (nodup_key_firstOfKey ds)
  have hsame : ((firstOfKey ds).map Definition.key).toFinset =
      (ds.map Definition.key).toFinset := by
    ext key
    simp only [List.mem_toFinset, List.mem_map]
    constructor
    · rintro ⟨d, hd, rfl⟩
      exact ⟨d, mem_firstOfKey hd, rfl⟩
    · rintro ⟨d, hd, rfl⟩
      obtain ⟨d', hd'⟩ : ∃ d', (firstOfKey ds).find? (·.key == d.key) = some d' := by
        rw [find?_firstOfKey]
        exact Option.isSome_iff_exists.1 (List.find?_isSome.2 ⟨d, hd, by simp⟩)
      exact ⟨d', List.mem_of_find?_eq_some hd', by simpa using List.find?_some hd'⟩
  rw [← hsame, List.toFinset_card_of_nodup hkeys, List.length_map]

theorem size_build {code : Code} {index : LabelIndex} (h : build code = .ok index) :
    index.size = ((code.filterMap Entry.label?).map foldCase).toFinset.card := by
  rw [size, length_firstOfKey, definitions_build h, keys_definitionsFrom]

/-- A first definition is the one that the index finds for its name. -/
theorem get?_of_mem_firstOfKey {code : Code} {index : LabelIndex} (h : build code = .ok index)
    {d : Definition} (hd : d ∈ firstOfKey index.definitions) :
    index.get? d.name = some d.position ∧ code.labelAt d.position = some d.name ∧
      foldCase d.name = d.key := by
  have hmem := mem_firstOfKey hd
  rw [definitions_build h] at hmem
  obtain ⟨i, hi, hlabel, hkey⟩ := mem_definitionsFrom.1 hmem
  rw [Nat.zero_add] at hi
  refine ⟨?_, hi ▸ hlabel, hkey.symm⟩
  have hfind := mem_firstOfKey_iff.1 hd
  rw [hkey] at hfind
  simp only [get?, find?, hfind, Option.map_some]

end LabelIndex

/-! ## The table of an image -/

namespace LabelTable

theorem pairwise_insertSorted {label : ImageLabel} {labels : List ImageLabel}
    (hlabels : labels.Pairwise fun l l' => l.key < l'.key)
    (hfresh : ∀ l ∈ labels, l.key ≠ label.key) :
    (insertSorted label labels).Pairwise fun l l' => l.key < l'.key := by
  induction labels with
  | nil => exact List.pairwise_singleton _ _
  | cons l labels ih =>
    obtain ⟨hl, hrest⟩ := List.pairwise_cons.1 hlabels
    obtain ⟨hne, hfresh⟩ := List.forall_mem_cons.1 hfresh
    rw [insertSorted]
    by_cases hlt : label.key < l.key
    · rw [if_pos hlt]
      refine List.pairwise_cons.2 ⟨?_, hlabels⟩
      intro l' hl'
      rcases List.mem_cons.1 hl' with rfl | hl'
      · exact hlt
      · exact hlt.trans (hl l' hl')
    · rw [if_neg hlt]
      refine List.pairwise_cons.2 ⟨?_, ih hrest hfresh⟩
      intro l' hl'
      rcases mem_insertSorted.1 hl' with rfl | hl'
      · exact lt_of_le_of_ne (not_lt.1 hlt) hne
      · exact hl l' hl'

variable {layout : Layout} {ds : List Definition}

theorem pairwise_ofDefinitions (hkeys : ds.Pairwise fun d d' => d.key ≠ d'.key) :
    (ofDefinitions layout ds).Pairwise fun l l' => l.key < l'.key := by
  induction ds with
  | nil => exact .nil
  | cons d ds ih =>
    obtain ⟨hd, hds⟩ := List.pairwise_cons.1 hkeys
    simp only [ofDefinitions, List.foldr_cons]
    split
    · refine pairwise_insertSorted (ih hds) fun l hl heq => ?_
      obtain ⟨d', hd', hkey⟩ := mem_ofDefinitions hl
      exact hd d' hd' (heq.symm.trans hkey.symm)
    · exact ih hds

theorem mem_ofDefinitions_iff {l : ImageLabel} :
    l ∈ ofDefinitions layout ds ↔ ∃ d ∈ ds, ∃ p, layout.places[d.position]? = some p ∧
      l = { key := d.key, name := d.name, place := p.labelAddress } := by
  induction ds with
  | nil => simp [ofDefinitions]
  | cons d ds ih =>
    rw [List.exists_mem_cons_iff, ← ih]
    simp only [ofDefinitions, List.foldr_cons]
    cases hplace : layout.places[d.position]? with
    | none => simp
    | some p => simp [mem_insertSorted]

end LabelTable

/-- The labels of an image are just the first definitions of its stream, in the order of the bytes
of their folded names, each with its spelling and where it is in the layout. -/
structure Image.LabelsExact (image : Image) (code : Code) (index : LabelIndex) (layout : Layout) :
    Prop where
  found : ∀ name k, index.get? name = some k →
    ∃ p, layout.places[k]? = some p ∧ image.label? name = some p.labelAddress
  missing : ∀ name, index.get? name = none → image.label? name = none
  sorted : image.labels.labels.Pairwise fun l l' => utf8 l.key < utf8 l'.key
  complete : ∀ e ∈ code, ∀ name, e.label? = some name →
    ∃ l ∈ image.labels.labels, l.key = foldCase name
  first : ∀ l ∈ image.labels.labels, foldCase l.name = l.key ∧
    ∃ k p, index.get? l.name = some k ∧ code.labelAt k = some l.name ∧
      layout.places[k]? = some p ∧ l.place = p.labelAddress

section Images

variable {code : Code} {marker : Option String} {image : Image} {index : LabelIndex}
  {r : Relaxed} {written : Nat}

theorem labels_of_emit (hemit : emit code index r written = .ok image) :
    image.labels.labels =
      LabelTable.ofDefinitions r.layout (LabelIndex.firstOfKey index.definitions) := by
  obtain ⟨chunks, -, himage⟩ := bind_eq_ok.1 hemit
  cases himage
  rfl

/-- The labels of an image are those of the settled layout. -/
theorem labelsExact_of_emit (hindex : LabelIndex.build code = .ok index)
    (hlaidOut : Layout.compute code r.layout.forms = .ok r.layout)
    (hemit : emit code index r written = .ok image) :
    image.LabelsExact code index r.layout := by
  have hlabels := labels_of_emit hemit
  have hentries := Layout.places_entry hlaidOut
  have hlabel : ∀ name, image.label? name =
      ((index.get? name).bind (r.layout.places[·]?)).map Place.labelAddress := by
    intro name
    rw [label?_of_emit hindex hentries hemit, Layout.definition?_eq hentries,
      LabelIndex.get?_build hindex]
  have hplace : ∀ k name, code.labelAt k = some name → ∃ p, r.layout.places[k]? = some p := by
    intro k name hk
    obtain ⟨e, he, -⟩ := Option.bind_eq_some_iff.1 hk
    obtain ⟨p, hp, -⟩ := Layout.place_of_getElem? hlaidOut he
    exact ⟨p, hp⟩
  constructor
  case found =>
    intro name k hk
    obtain ⟨hlt, -⟩ := List.findIdx?_eq_some_iff_getElem.1 (LabelIndex.get?_build hindex name ▸ hk)
    obtain ⟨p, hp, -⟩ := Layout.place_of_getElem? hlaidOut (List.getElem?_eq_getElem hlt)
    exact ⟨p, hp, by rw [hlabel, hk, Option.bind_some, hp, Option.map_some]⟩
  case missing =>
    intro name hnone
    rw [hlabel, hnone]
    rfl
  case sorted =>
    rw [hlabels]
    exact (LabelTable.pairwise_ofDefinitions (LabelIndex.nodup_key_firstOfKey _)).imp utf8_lt
  case complete =>
    intro e he name hname
    obtain ⟨i, hi⟩ := List.getElem?_of_mem he
    have hlabelAt : code.labelAt i = some name := by rw [Code.labelAt, hi, Option.bind_some, hname]
    have hmem := LabelIndex.mem_of_labelAt hlabelAt
    -- The name may be a later spelling: the table has the first definition with its key.
    obtain ⟨d, hd⟩ : ∃ d, index.definitions.find? (·.key == foldCase name) = some d := by
      rw [LabelIndex.definitions_build hindex]
      exact Option.isSome_iff_exists.1 (List.find?_isSome.2 ⟨_, hmem, by simp⟩)
    have hkey : d.key = foldCase name := by simpa using List.find?_some hd
    have hfirst : d ∈ LabelIndex.firstOfKey index.definitions := by
      rw [LabelIndex.mem_firstOfKey_iff, hkey, hd]
    obtain ⟨-, hlabelAt', -⟩ := LabelIndex.get?_of_mem_firstOfKey hindex hfirst
    obtain ⟨p, hp⟩ := hplace _ _ hlabelAt'
    refine ⟨{ key := d.key, name := d.name, place := p.labelAddress }, ?_, hkey⟩
    rw [hlabels]
    exact LabelTable.mem_ofDefinitions_iff.2 ⟨d, hfirst, p, hp, rfl⟩
  case first =>
    intro l hl
    rw [hlabels] at hl
    obtain ⟨d, hd, p, hp, rfl⟩ := LabelTable.mem_ofDefinitions_iff.1 hl
    obtain ⟨hget, hlabelAt, hkey⟩ := LabelIndex.get?_of_mem_firstOfKey hindex hd
    exact ⟨hkey, d.position, p, hget, hlabelAt, hp, rfl⟩

end Images

/-- **The index and the label table are exact.** A stream is refused if two of its entries define
the same spelling, and then for the first entry that repeats a spelling and the first one that has
it. Otherwise the index finds the first entry that defines a name up to letter case, and has as many
names as there are folded names. The labels of a linked image are where the settled layout has these
entries, and are listed once for each folded name, in the order of its bytes. -/
theorem label_table_exact (code : Code) :
    ((∃ err, LabelIndex.build code = .error err) ↔
      ∃ i j name, i < j ∧ code.labelAt i = some name ∧ code.labelAt j = some name) ∧
    (∀ err, LabelIndex.build code = .error err ↔ ∃ name first second,
      err = .duplicateLabel name first second ∧ code.FirstRepeat name first second) ∧
    (∀ index, LabelIndex.build code = .ok index →
      (∀ name, index.get? name = code.findIdx? (·.defines name)) ∧
      index.size = ((code.filterMap Entry.label?).map foldCase).toFinset.card) ∧
    ∀ marker image, link code marker = .ok image → ∃ index r,
      LabelIndex.build code = .ok index ∧ relax code index = .ok r ∧
      image.LabelsExact code index r.layout := by
  refine ⟨LabelIndex.exists_build_error_iff, fun _ => LabelIndex.build_eq_error_iff, ?_, ?_⟩
  · intro index hindex
    exact ⟨LabelIndex.get?_build hindex, LabelIndex.size_build hindex⟩
  · intro marker image himage
    obtain ⟨index, r, written, hindex, hrelax, -, hemit⟩ := link_eq_ok.1 himage
    obtain ⟨-, hr⟩ := relax_outcome hindex hrelax
    exact ⟨index, r, hindex, hrelax, labelsExact_of_emit hindex hr.laidOut hemit⟩

/-- A spelling that is repeated; and a stream with two spellings of one name, one of them behind the
marker, whose table is in the order of the folded names. -/
theorem label_table_exact_spellings :
    (∃ name first second, LabelIndex.build [.label "b", .label "a", .data (some "A") (.word 1),
        .label "a", .label "b"] = .error (.duplicateLabel name first second) ∧
      name = "a" ∧ first = 1 ∧ second = 3 ∧
      Code.FirstRepeat [.label "b", .label "a", .data (some "A") (.word 1), .label "a", .label "b"]
        name first second) ∧
    (∃ index, LabelIndex.build [.label "b", .data (some "A") (.word 1), .label "a"] = .ok index ∧
      index.get? "a" = some 1 ∧
      index.size = (["b", "a", "a"] : List String).toFinset.card) ∧
    ∃ image index r, link [.label "b", .data (some "A") (.word 1), .label "a"] (some "a") =
        .ok image ∧
      image.LabelsExact [.label "b", .data (some "A") (.word 1), .label "a"] index r ∧
      image.labels.labels.map ImageLabel.name = ["A", "b"] := by
  refine ⟨?_, ?_, ?_⟩
  · obtain ⟨-, hrefused, -⟩ := label_table_exact [.label "b", .label "a",
      .data (some "A") (.word 1), .label "a", .label "b"]
    have herror : LabelIndex.build [.label "b", .label "a", .data (some "A") (.word 1), .label "a",
      .label "b"] = .error (.duplicateLabel "a" 1 3) := rfl
    obtain ⟨name, first, second, heq, hrepeat⟩ := (hrefused _).1 herror
    cases heq
    exact ⟨_, _, _, herror, rfl, rfl, rfl, hrepeat⟩
  · obtain ⟨-, -, hindexed, -⟩ :=
      label_table_exact [.label "b", .data (some "A") (.word 1), .label "a"]
    have hindex : LabelIndex.build [.label "b", .data (some "A") (.word 1), .label "a"] = .ok _ :=
      rfl
    obtain ⟨hget, hsize⟩ := hindexed _ hindex
    exact ⟨_, hindex, hget "a", hsize⟩
  · obtain ⟨-, -, -, hlinked⟩ :=
      label_table_exact [.label "b", .data (some "A") (.word 1), .label "a"]
    have himage : link [.label "b", .data (some "A") (.word 1), .label "a"] (some "a") = .ok _ :=
      rfl
    obtain ⟨index, r, -, -, hexact⟩ := hlinked _ _ himage
    exact ⟨_, index, r.layout, himage, hexact, rfl⟩

end BootImage
