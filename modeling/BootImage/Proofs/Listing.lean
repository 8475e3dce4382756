import BootImage.Proofs.Linked
import BootImage.Proofs.OneLine

/-!
# The listing of an image

A line of the listing has its place from the layout and its bytes from the image, which ends where
the reserved space starts. Layout and image agree: the lines stand for the chunks that the entries
wrote, one behind the other, and from the marker on for nothing. What is printed of a line can be
read back, with the first eight of its bytes.

* `ListingRecord.read` — a printed line, read column by column.
* `readBytes_byteColumn`, `read_record` — it shows what the line stands for.
* `Linked.map_slice_lines` — the lines of the listing stand for the chunks.
* `Image.listing_eq_join`, `splitOn_listing` — the listing as records, and as lines.
* `listing_tiles` — the listing of a linked image.
-/

namespace BootImage

open Text

/-! ## Reading a line -/

/-- What a printed line shows. -/
structure ListingRecord where
  offset : Nat
  address : Nat
  /-- The bytes that are shown. -/
  bytes : List UInt8
  /-- What stands behind them in the byte column, without blanks. -/
  more : String
  text : String
  deriving DecidableEq

namespace ListingRecord

/-- The value of a digit. -/
def digitValue? (c : Char) : Option Nat :=
  upperDigits.idxOf? c

/-- The number that digits stand for. -/
def number (digits : List Char) : Nat :=
  digits.foldl (fun n c => 16 * n + (digitValue? c).getD 0) 0

/-- Reads the byte column in cells of three characters, which hold two digits and a blank as long
as there are bytes. Gives the bytes and what stands behind them. -/
def readBytes : List Char → List UInt8 × List Char
  | high :: low :: gap :: cells =>
    match digitValue? high, digitValue? low with
    | some h, some l => (UInt8.ofNat (16 * h + l) :: (readBytes cells).1, (readBytes cells).2)
    | _, _ => ([], high :: low :: gap :: cells)
  | cells => ([], cells)

/-- Reads a line: two numbers and two blanks behind each of them, the byte column of 27 characters,
and behind a blank the text. -/
def read (line : List Char) : ListingRecord :=
  let behindOffset := (line.dropWhile (· ≠ ' ')).drop 2
  let behindAddress := (behindOffset.dropWhile (· ≠ ' ')).drop 2
  let column := readBytes (behindAddress.take 27)
  { offset := number (line.takeWhile (· ≠ ' '))
    address := number (behindOffset.takeWhile (· ≠ ' '))
    bytes := column.1
    more := String.ofList (column.2.filter (· ≠ ' '))
    text := String.ofList (behindAddress.drop 28) }

end ListingRecord

open ListingRecord

/-! ## Numbers -/

theorem digitValue?_upperDigit {n : Nat} (h : n < 16) : digitValue? (upperDigit n) = some n := by
  revert n
  decide

theorem number_append_singleton (digits : List Char) (c : Char) :
    number (digits ++ [c]) = 16 * number digits + (digitValue? c).getD 0 := by
  rw [number, List.foldl_append]
  rfl

theorem number_hexDigits (n : Nat) : number (hexDigits n) = n := by
  induction n using Nat.strongRecOn with
  | ind n ih =>
    rw [hexDigits_eq_if]
    split
    case isTrue hlt => simp [number, digitValue?_upperDigit hlt]
    case isFalse hge =>
      rw [number_append_singleton, ih _ (by omega),
        digitValue?_upperDigit (Nat.mod_lt _ (by decide))]
      exact Nat.div_add_mod n 16

theorem number_zeros_append (k : Nat) (digits : List Char) :
    number (List.replicate k '0' ++ digits) = number digits := by
  induction k with
  | zero => rfl
  | succ k ih => exact ih

theorem number_hexPadded (width n : Nat) : number (hexPadded width n).toList = n := by
  rw [hexPadded, String.toList_ofList, number_zeros_append, number_hexDigits]

theorem hexPadded_two {n : Nat} (h : n < 256) :
    (hexPadded 2 n).toList = [upperDigit (n / 16), upperDigit (n % 16)] := by
  rw [hexPadded, String.toList_ofList, hexDigits_eq_if]
  by_cases hlt : n < 16
  · rw [if_pos hlt, Nat.div_eq_of_lt hlt, Nat.mod_eq_of_lt hlt]
    rfl
  · rw [if_neg hlt, hexDigits_eq_if, if_pos (by omega)]
    rfl

/-! ## The byte column -/

/-- The cell of a byte. -/
def byteCell (b : UInt8) : List Char :=
  (hexPadded 2 b.toNat).toList ++ [' ']

theorem readBytes_byteCell (b : UInt8) (cells : List Char) :
    readBytes (byteCell b ++ cells) = (b :: (readBytes cells).1, (readBytes cells).2) := by
  have hlt : b.toNat < 256 := b.toNat_lt
  rw [byteCell, hexPadded_two hlt]
  show readBytes (_ :: _ :: _ :: cells) = _
  rw [readBytes, digitValue?_upperDigit (by omega), digitValue?_upperDigit (by omega)]
  simp only [Nat.div_add_mod, UInt8.ofNat_toNat]

theorem readBytes_cells (bytes : List UInt8) (cells : List Char) :
    readBytes (bytes.flatMap byteCell ++ cells) =
      (bytes ++ (readBytes cells).1, (readBytes cells).2) := by
  induction bytes with
  | nil => rfl
  | cons b bytes ih =>
    rw [List.flatMap_cons, List.append_assoc, readBytes_byteCell, ih]
    rfl

theorem readBytes_blanks (k : Nat) :
    readBytes (List.replicate k ' ') = ([], List.replicate k ' ') := by
  match k with
  | 0 | 1 | 2 => rfl
  | k + 3 => rfl

/-- Parts that are joined, with the separator behind each of them but the last. -/
theorem intercalate_append_singleton {α : Type} (sep last : List α) (parts : List (List α)) :
    sep.intercalate (parts ++ [last]) = parts.flatMap (· ++ sep) ++ last := by
  induction parts with
  | nil => simp
  | cons part parts ih =>
    cases parts with
    | nil => simp [List.intercalate]
    | cons part' parts =>
      rw [List.cons_append, List.cons_append, List.intercalate_cons_cons, ← List.cons_append, ih]
      simp

theorem length_cells (bytes : List UInt8) : (bytes.flatMap byteCell).length = 3 * bytes.length := by
  induction bytes with
  | nil => rfl
  | cons b bytes ih =>
    rw [List.flatMap_cons, List.length_append, ih, byteCell, hexPadded_two b.toNat_lt]
    simp
    omega

/-- What stands in the byte column behind the bytes that are shown. -/
def columnEnd (bytes : List UInt8) : List Char :=
  if 8 < bytes.length then ['.', '.', '.'] else List.replicate (27 - 3 * bytes.length) ' '

theorem readBytes_columnEnd (bytes : List UInt8) :
    readBytes (columnEnd bytes) = ([], columnEnd bytes) := by
  rw [columnEnd]
  split
  · rfl
  · exact readBytes_blanks _

/-- Blanks apart, there are dots behind the bytes that are shown, or nothing. -/
theorem filter_columnEnd (bytes : List UInt8) : String.ofList ((columnEnd bytes).filter (· ≠ ' ')) =
    if 8 < bytes.length then "..." else "" := by
  rw [columnEnd]
  split
  · rfl
  · simp

theorem toList_padRight (width : Nat) (s : String) :
    (padRight width s).toList = s.toList ++ List.replicate (width - s.toList.length) ' ' := by
  rw [padRight, String.toList_append, String.toList_ofList, String.length_toList]

/-- Bytes and what stands behind them, with blanks in between. -/
theorem toList_joined (bytes : List UInt8) (last : String) :
    (" ".intercalate ((bytes.map fun b => hexPadded 2 b.toNat) ++ [last])).toList =
      bytes.flatMap byteCell ++ last.toList := by
  rw [String.toList_intercalate, List.map_append, List.map_map, List.map_singleton]
  rw [intercalate_append_singleton, List.flatMap_map]
  rfl

theorem toList_byteColumn (bytes : List UInt8) :
    (padRight 27 (ListingLine.byteColumn bytes)).toList =
      (bytes.take 8).flatMap byteCell ++ columnEnd bytes := by
  rw [toList_padRight, ListingLine.byteColumn]
  by_cases hmore : 8 < bytes.length
  · simp only [gt_iff_lt, hmore, if_true, toList_joined, columnEnd]
    have hlength : (bytes.take 8).length = 8 := List.length_take_of_le hmore.le
    rw [List.length_append, length_cells, hlength]
    exact List.append_nil _
  · simp only [gt_iff_lt, hmore, if_false, columnEnd]
    rw [List.take_of_length_le (Nat.le_of_not_lt hmore)]
    rcases List.eq_nil_or_concat' bytes with rfl | ⟨front, last, rfl⟩
    · rfl
    · -- The blank of the last cell is the first one of the padding.
      have hcell := hexPadded_two last.toNat_lt
      rw [List.map_append, List.map_singleton, toList_joined, List.length_append, length_cells]
      simp only [List.length_append, hcell, List.flatMap_append, List.flatMap_singleton, byteCell,
        List.length_cons, List.length_nil, List.append_assoc] at hmore ⊢
      have hblanks : 27 - (3 * front.length + 2) = 27 - 3 * (front.length + 1) + 1 := by omega
      rw [hblanks, List.replicate_succ]
      rfl

theorem length_byteColumn (bytes : List UInt8) :
    (padRight 27 (ListingLine.byteColumn bytes)).toList.length = 27 := by
  rw [toList_byteColumn, List.length_append, length_cells, List.length_take, columnEnd]
  split
  · simp
    omega
  · simp
    omega

/-- The byte column shows the first eight bytes, and whether there are more. -/
theorem readBytes_byteColumn (bytes : List UInt8) :
    readBytes (padRight 27 (ListingLine.byteColumn bytes)).toList =
      (bytes.take 8, columnEnd bytes) := by
  rw [toList_byteColumn, readBytes_cells, readBytes_columnEnd, List.append_nil]

/-! ## Printed lines -/

/-- A printed line, without its end. -/
def ListingLine.record (line : ListingLine) (bytes : List UInt8) : String :=
  hexPadded 8 line.offset ++ "  " ++ (hexPadded 8 line.address ++ "  " ++
    (padRight 27 (byteColumn bytes) ++ (" " ++ line.text)))

theorem ListingLine.render_eq (line : ListingLine) (bytes : List UInt8) :
    line.render bytes = line.record bytes ++ "\n" := by
  simp only [render, record, String.append_assoc]
  rfl

theorem hexPadded_ne_blank (width n : Nat) :
    ∀ c ∈ (hexPadded width n).toList, decide (c ≠ ' ') = true := by
  have hblank : ' ' ∉ upperDigits := by decide
  exact fun c hc => decide_eq_true (ne_of_mem_of_not_mem (mem_hexPadded hc) hblank)

theorem takeWhile_hexPadded (width n : Nat) (rest : List Char) :
    ((hexPadded width n).toList ++ ' ' :: rest).takeWhile (· ≠ ' ') =
      (hexPadded width n).toList := by
  rw [List.takeWhile_append_of_pos (hexPadded_ne_blank width n)]
  exact List.append_nil _

theorem dropWhile_hexPadded (width n : Nat) (rest : List Char) :
    ((hexPadded width n).toList ++ ' ' :: rest).dropWhile (· ≠ ' ') = ' ' :: rest := by
  rw [List.dropWhile_append_of_pos (hexPadded_ne_blank width n)]
  rfl

/-- What a printed line shows is its place, the first eight of its bytes and its text. -/
theorem read_record (line : ListingLine) (bytes : List UInt8) :
    ListingRecord.read (line.record bytes).toList =
      { offset := line.offset, address := line.address, bytes := bytes.take 8
        more := if 8 < bytes.length then "..." else "", text := line.text } := by
  have hline : (line.record bytes).toList = (hexPadded 8 line.offset).toList ++ ' ' :: ' ' ::
      ((hexPadded 8 line.address).toList ++ ' ' :: ' ' ::
        ((padRight 27 (ListingLine.byteColumn bytes)).toList ++ ' ' :: line.text.toList)) := by
    simp [ListingLine.record]
  have hcolumn := length_byteColumn bytes
  have htext : ((padRight 27 (ListingLine.byteColumn bytes)).toList ++
      ' ' :: line.text.toList).drop 28 = line.text.toList := by
    rw [← List.singleton_append, ← List.append_assoc]
    exact List.drop_left' (by rw [List.length_append, hcolumn]; rfl)
  rw [hline, ListingRecord.read]
  simp only [takeWhile_hexPadded, dropWhile_hexPadded, List.drop_succ_cons, List.drop_zero,
    number_hexPadded, List.take_left' hcolumn, htext, readBytes_byteColumn, filter_columnEnd,
    String.ofList_toList]

theorem oneLine_byteColumn (bytes : List UInt8) : OneLine (ListingLine.byteColumn bytes) := by
  have hshown : ∀ t ∈ (bytes.take 8).map (fun b => hexPadded 2 b.toNat), OneLine t := by
    intro t ht
    obtain ⟨b, -, rfl⟩ := List.mem_map.1 ht
    exact oneLine_hexPadded
  unfold ListingLine.byteColumn
  refine oneLine_intercalate (by decide) ?_
  split
  · exact List.forall_mem_append.2 ⟨hshown, by decide⟩
  · exact hshown

theorem ListingLine.oneLine_record {line : ListingLine} (h : OneLine line.text)
    (bytes : List UInt8) : OneLine (line.record bytes) := by
  have hcolumn : OneLine (padRight 27 (byteColumn bytes)) := by
    simp [padRight, oneLine_byteColumn]
  simp +decide [record, hcolumn, h]

/-! ## The listing of a linked image -/

namespace Image

/-- The printed lines of the listing, in order. -/
def records (image : Image) : List String :=
  image.lines.map fun line => line.record (image.slice line)

theorem listing_eq_join (image : Image) :
    image.listing = String.join (image.records.map (· ++ "\n")) := by
  simp only [listing, records, List.map_map, ListingLine.render_eq]
  rfl

/-- If every printed line is one line, the lines of the listing are the printed lines. -/
theorem splitOn_listing {image : Image} (h : ∀ record ∈ image.records, OneLine record) :
    image.listing.toList.splitOn '\n' = image.records.map String.toList ++ [[]] := by
  have hjoined : image.listing.toList =
      ['\n'].intercalate (image.records.map String.toList ++ [[]]) := by
    rw [listing_eq_join, String.toList_join, intercalate_append_singleton]
    simp [List.flatMap_map]
  rw [hjoined]
  refine List.splitOn_intercalate '\n' ?_ (by simp)
  intro cs hcs
  rcases List.mem_append.1 hcs with hrecord | hlast
  · obtain ⟨record, hmem, rfl⟩ := List.mem_map.1 hrecord
    exact h record hmem
  · rw [List.mem_singleton.1 hlast]
    exact List.not_mem_nil

end Image

/-- A line that nothing was written for stands for nothing. -/
theorem Image.slice_reserved (image : Image) (p : Place) : image.slice (p.line false) = [] :=
  List.take_zero

theorem Place.length_line_le (p : Place) (written : Bool) : (p.line written).length ≤ p.size := by
  cases written with
  | false => exact Nat.zero_le _
  | true => exact le_rfl

namespace Linked

variable {code : Code} {marker : Option String} {image : Image} {index : LabelIndex}
  {layout : Layout} {chunks : List (List UInt8)}

variable (h : Linked code marker image index layout chunks)
include h

theorem map_text_lines : image.lines.map ListingLine.text = code.map Entry.text := by
  rw [h.lines_eq, ← Layout.places_entry h.laidOut, List.map_append, List.map_map, List.map_map,
    List.map_map]
  exact (List.map_append.symm).trans (congrArg _ (List.take_append_drop ..))

theorem text_line {k : Nat} {e : Entry} {line : ListingLine} (he : code[k]? = some e)
    (hline : image.lines[k]? = some line) : line.text = e.text := by
  have htext := congrArg (·[k]?) h.map_text_lines
  simpa [he, hline] using htext

theorem exists_text {line : ListingLine} (hline : line ∈ image.lines) :
    ∃ e ∈ code, line.text = e.text := by
  have htext : line.text ∈ code.map Entry.text := h.map_text_lines ▸ List.mem_map_of_mem hline
  obtain ⟨e, he, heq⟩ := List.mem_map.1 htext
  exact ⟨e, he, heq.symm⟩

theorem length_lines : image.lines.length = code.length := by
  simpa using congrArg List.length h.map_text_lines

/-- Every line is that of an entry in its place. -/
theorem place_of_line {k : Nat} {line : ListingLine} (hline : image.lines[k]? = some line) :
    ∃ p, layout.places[k]? = some p ∧ line = p.line (decide (k < chunks.length)) := by
  have hlt : k < layout.places.length := by
    rw [Layout.places_length h.laidOut, ← h.length_lines]
    exact (List.getElem?_eq_some_iff.1 hline).1
  have hp := List.getElem?_eq_getElem hlt
  exact ⟨_, hp, Option.some.inj (hline.symm.trans (h.line_of_place hp))⟩

theorem map_slice_lines : image.lines.map image.slice =
    chunks ++ List.replicate (code.length - chunks.length) [] := by
  rw [h.lines_eq, List.map_append, List.map_map, List.map_map]
  congr 1
  · refine List.ext_getElem? fun k => ?_
    by_cases hk : k < chunks.length
    · obtain ⟨p, chunk, hp, hchunk⟩ := h.exists_chunk hk
      rw [List.getElem?_map, List.getElem?_take_of_lt hk, hp, hchunk]
      exact congrArg some (h.slice_line hp hchunk)
    · rw [List.getElem?_eq_none, List.getElem?_eq_none (Nat.le_of_not_lt hk)]
      rw [List.length_map, List.length_take]
      omega
  · rw [List.eq_replicate_iff]
    refine ⟨?_, fun slice hslice => ?_⟩
    · rw [List.length_map, List.length_drop, Layout.places_length h.laidOut]
    · obtain ⟨p, -, rfl⟩ := List.mem_map.1 hslice
      exact image.slice_reserved p

theorem flatten_slices : (image.lines.map image.slice).flatten = image.bytes := by
  rw [h.map_slice_lines, h.bytes_eq, List.flatten_append, List.flatten_replicate_nil,
    List.append_nil]

/-- No line stands for bytes behind the end of the image. -/
theorem length_slice_line {k : Nat} {line : ListingLine} (hline : image.lines[k]? = some line) :
    (image.slice line).length = line.length := by
  obtain ⟨p, hp, rfl⟩ := h.place_of_line hline
  by_cases hk : k < chunks.length
  · obtain ⟨p', chunk, hp', hchunk⟩ := h.exists_chunk hk
    cases hp.symm.trans hp'
    rw [decide_eq_true hk, h.slice_line hp hchunk]
    exact (h.slice hp hchunk).1.length
  · rw [decide_eq_false hk]
    exact congrArg List.length (image.slice_reserved p)

/-- A line stands for nothing if its entry takes no space. -/
theorem slice_eq_nil {k : Nat} {line : ListingLine} {p : Place} (hp : layout.places[k]? = some p)
    (hsize : p.cursor.size p.entry p.form = .ok 0) (hline : image.lines[k]? = some line) :
    image.slice line = [] := by
  have hlength := h.length_slice_line hline
  obtain ⟨q, hq, rfl⟩ := h.place_of_line hline
  cases hp.symm.trans hq
  have hle := p.length_line_le (decide (k < chunks.length))
  rw [h.size_of_entry hp hsize] at hle
  exact List.eq_nil_of_length_eq_zero (hlength.trans (Nat.le_zero.1 hle))

theorem pairwise_lines : image.lines.Pairwise fun a b => a.offset + a.length ≤ b.offset := by
  rw [List.pairwise_iff_getElem]
  intro i j hi hj hlt
  obtain ⟨p, hp, hpline⟩ := h.place_of_line (List.getElem?_eq_getElem hi)
  obtain ⟨q, hq, hqline⟩ := h.place_of_line (List.getElem?_eq_getElem hj)
  rw [hpline, hqline]
  have hle := p.length_line_le (decide (i < chunks.length))
  exact (Nat.add_le_add_left hle p.offset).trans (Layout.stop_le_offset h.laidOut hp hq hlt)

end Linked

/-- The listing of an image that is linked from `code` tells apart what the entries wrote: `chunks`,
which are those of the entries in front of the marker. -/
structure Image.ListingTiles (image : Image) (code : Code) (marker : Option String)
    (chunks : List (List UInt8)) : Prop where
  /-- The entries in front of the marker are written, and all of them without a marker. -/
  written : match marker with
    | none => chunks.length = code.length
    | some name => code.findIdx? (·.defines name) = some chunks.length
  /-- The lines stand for what the entries wrote, and from the marker on for nothing. -/
  slices : image.lines.map image.slice = chunks ++ List.replicate (code.length - chunks.length) []
  /-- A directive that takes no space wrote nothing. -/
  silent : ∀ (k : Nat) e line, code[k]? = some e → image.lines[k]? = some line →
    (∃ mode, e = .bits mode) ∨ (∃ origin, e = .org origin) ∨ (∃ name, e = .label name) →
      image.slice line = []
  /-- Together the lines stand for the whole image. -/
  flatten : (image.lines.map image.slice).flatten = image.bytes
  /-- Nothing that a line stands for is cut off at the end of the image. -/
  whole : ∀ line ∈ image.lines, (image.slice line).length = line.length
  /-- The first line is at the start of the image, and written lines are one behind the other. -/
  first : ∀ line, image.lines[0]? = some line → line.offset = 0
  adjacent : ∀ (k : Nat) line next, k < chunks.length → image.lines[k]? = some line →
    image.lines[k + 1]? = some next → next.offset = line.offset + line.length
  /-- No line stands for bytes of another one. -/
  apart : image.lines.Pairwise fun a b => a.offset + a.length ≤ b.offset
  /-- The listing is printed line by line. -/
  printed : image.listing = String.join (image.records.map (· ++ "\n"))
  /-- There is a printed line for each entry. -/
  length_records : image.records.length = code.length
  /-- It shows the first eight bytes that the line stands for, behind them dots if there are more and
  nothing else, and the text of the entry; and it is one line if the names in the entry are. -/
  records : ∀ (k : Nat) e line, code[k]? = some e → image.lines[k]? = some line →
    ∃ record, image.records[k]? = some record ∧
      ListingRecord.read record.toList = {
        offset := line.offset
        address := line.address
        bytes := (image.slice line).take 8
        more := if 8 < (image.slice line).length then "..." else ""
        text := e.text } ∧
      ((∀ name ∈ e.names, OneLine name) → OneLine record)
  /-- If all names are on one line, the lines of the listing are these. -/
  one_line : (∀ e ∈ code, ∀ name ∈ e.names, OneLine name) →
    image.listing.toList.splitOn '\n' = image.records.map String.toList ++ [[]]

/-- **The listing tiles the image.** Every linked image has a listing with a line for each entry, and
the bytes that the lines stand for are what the entries wrote. -/
theorem listing_tiles {code : Code} {marker : Option String} {image : Image}
    (h : link code marker = .ok image) : ∃ index layout chunks,
      Linked code marker image index layout chunks ∧ image.ListingTiles code marker chunks := by
  obtain ⟨index, layout, chunks, hlinked⟩ := linked_of_link h
  refine ⟨index, layout, chunks, hlinked, {
    written := (writtenEntries_eq_ok hlinked.indexed).1 hlinked.written
    slices := hlinked.map_slice_lines
    silent := ?silent
    flatten := hlinked.flatten_slices
    whole := ?whole
    first := ?first
    adjacent := ?adjacent
    apart := hlinked.pairwise_lines
    printed := image.listing_eq_join
    length_records := by rw [Image.records, List.length_map, hlinked.length_lines]
    records := ?records
    one_line := ?one_line }⟩
  case silent =>
    intro k e line he hline hsilent
    obtain ⟨p, hp, rfl⟩ := Layout.place_of_getElem? hlinked.laidOut he
    refine hlinked.slice_eq_nil hp ?_ hline
    rcases hsilent with ⟨mode, hentry⟩ | ⟨origin, hentry⟩ | ⟨name, hentry⟩ <;> rw [hentry] <;> rfl
  case whole =>
    intro line hmem
    obtain ⟨k, hline⟩ := List.getElem?_of_mem hmem
    exact hlinked.length_slice_line hline
  case first =>
    intro line hline
    obtain ⟨p, hp, rfl⟩ := hlinked.place_of_line hline
    exact Layout.offset_eq_sum hlinked.laidOut hp
  case adjacent =>
    intro k line next hk hline hnext
    obtain ⟨p, hp, rfl⟩ := hlinked.place_of_line hline
    obtain ⟨q, hq, rfl⟩ := hlinked.place_of_line hnext
    rw [decide_eq_true hk]
    exact Layout.offset_succ hlinked.laidOut hp hq
  case records =>
    intro k e line he hline
    have htext := hlinked.text_line he hline
    refine ⟨line.record (image.slice line), ?_, ?_, fun hnames => ?_⟩
    · rw [Image.records, List.getElem?_map, hline]
      rfl
    · rw [read_record, htext]
    · exact ListingLine.oneLine_record (htext ▸ Entry.oneLine_text hnames) _
  case one_line =>
    intro hnames
    refine Image.splitOn_listing fun record hrecord => ?_
    -- A line feed in a record could only come from the text of its entry.
    obtain ⟨line, hline, rfl⟩ := List.mem_map.1 hrecord
    obtain ⟨e, he, htext⟩ := hlinked.exists_text hline
    exact ListingLine.oneLine_record (htext ▸ Entry.oneLine_text (hnames e he)) _

/-- A stream with more bytes in one entry than a line shows, and with reserved space. -/
def reservingStream : Code :=
  [.label "start", .data none (.bytes [1, 2, 3, 4, 5, 6, 7, 8, 9]),
    .instruction ⟨.jmp, [.label "start"]⟩, .label "bss", .times 4 0]

/-- What is printed of it. The reserved lines show no bytes. -/
def reservingRecords : List String := [
  "00000000  00000000                              start:",
  "00000000  00000000  01 02 03 04 05 06 07 08 ... " ++
    "db 0x01, 0x02, 0x03, 0x04, 0x05, 0x06, 0x07, 0x08, 0x09",
  "00000009  00000009  EB F5                       jmp start",
  "0000000B  0000000B                              bss:",
  "0000000B  0000000B                              times 4 db 0x00"]

theorem listing_tiles_reserved : ∃ image index layout chunks,
    link reservingStream (some "bss") = .ok image ∧ image.records = reservingRecords ∧
    Linked reservingStream (some "bss") image index layout chunks ∧
    image.ListingTiles reservingStream (some "bss") chunks := by
  have hlink : (link reservingStream (some "bss")).toOption.any
      (fun image => image.records == reservingRecords) = true := by
    decide +kernel
  obtain ⟨image, h, hrecords⟩ := exists_ok_of_any hlink
  obtain ⟨index, layout, chunks, hlinked, htiles⟩ := listing_tiles h
  exact ⟨image, index, layout, chunks, h, eq_of_beq hrecords, hlinked, htiles⟩

end BootImage
