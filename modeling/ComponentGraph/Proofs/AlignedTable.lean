import ComponentGraph.Graph.Degrees
import ComponentGraph.Text.Bytes
import Mathlib.Algebra.Group.Nat.Defs
import Mathlib.Data.List.MinMax
/-!
# The table of degrees lines up

A row is a bar, a cell and a bar, and so on. Every cell holds its whole text, so that a text that is
wider than its column moves what follows it to the right. The column of names is made for the
longest of them, while the other columns are as wide as their headers: a row lines up with the
header and the borders as long as its number and its degrees are no wider than these.
-/

namespace ComponentGraph

namespace Text

/-- The text of a cell, with nothing beside it but spaces. -/
def IsCell (text cell : String) : Prop :=
  ∃ before after, cell = repeated ' ' before ++ text ++ repeated ' ' after

theorem isCell_pad (align : Align) (width : Nat) (text : String) :
    IsCell text (pad align width text) := by
  cases align with
  | left => exact ⟨0, width - text.length, by simp [pad, repeated]⟩
  | right => exact ⟨width - text.length, 0, by simp [pad, repeated]⟩

theorem length_repeated (c : Char) (n : Nat) : (repeated c n).length = n := by
  rw [repeated, String.length_ofList, List.length_replicate]

theorem utf8ByteSize_eq (s : String) : s.utf8ByteSize = (bytes s.toList).length := by
  rw [← String.size_toByteArray, ← bytes_toList, List.size_toByteArray]

theorem utf8ByteSize_repeated {c : Char} (h : c.toNat < 128) (n : Nat) :
    (repeated c n).utf8ByteSize = n := by
  rw [utf8ByteSize_eq, repeated, String.toList_ofList, bytes, List.flatMap_replicate,
    utf8EncodeChar_of_lt h]
  simp

/-- A space is one byte, so that padding adds as many bytes as characters. -/
theorem utf8ByteSize_pad (align : Align) (width : Nat) (text : String) :
    (pad align width text).utf8ByteSize = text.utf8ByteSize + (width - text.length) := by
  have hspaces := @utf8ByteSize_repeated ' ' (by decide) (width - text.length)
  cases align with
  | left => rw [pad, String.utf8ByteSize_append, hspaces]
  | right => rw [pad, String.utf8ByteSize_append, hspaces, Nat.add_comm]

end Text

namespace DegreeTable

theorem row_eq (t : DegreeTable) (number name indegree outdegree : String) :
    t.row number name indegree outdegree =
      "|" ++ Text.pad .left 3 number ++ "|" ++ Text.pad .left t.nameWidth name ++
        "|" ++ Text.pad .right 10 indegree ++ "|" ++ Text.pad .right 11 outdegree ++ "|" := by
  have hnumber : numberHeader.utf8ByteSize = 3 := by decide
  have hindegree : indegreeHeader.utf8ByteSize = 10 := by decide
  have houtdegree : outdegreeHeader.utf8ByteSize = 11 := by decide
  simp [row, hnumber, hindegree, houtdegree, String.append_assoc]

/-- A column is as wide as its header, or as the text of the row if that is wider. -/
theorem length_row (t : DegreeTable) (number name indegree outdegree : String) :
    (t.row number name indegree outdegree).length =
      5 + max 3 number.length + max t.nameWidth name.length + max 10 indegree.length +
        max 11 outdegree.length := by
  have hbar : "|".length = 1 := rfl
  simp only [row_eq, String.length_append, Text.length_pad, hbar]
  omega

/-! ## The header and the borders -/

/-- The header has as many bytes as characters, and so has the border below it. -/
theorem utf8ByteSize_header (t : DegreeTable) : t.header.utf8ByteSize = t.header.length := by
  have hbar : "|".utf8ByteSize = 1 := by decide
  have hnumber : numberHeader.utf8ByteSize = 3 ∧ numberHeader.length = 3 := by decide
  have hname : nameHeader.utf8ByteSize = 6 ∧ nameHeader.length = 6 := by decide
  have hindegree : indegreeHeader.utf8ByteSize = 10 ∧ indegreeHeader.length = 10 := by decide
  have houtdegree : outdegreeHeader.utf8ByteSize = 11 ∧ outdegreeHeader.length = 11 := by decide
  rw [header, length_row]
  simp only [row_eq, String.utf8ByteSize_append, Text.utf8ByteSize_pad, hbar, hnumber, hname,
    hindegree, houtdegree]
  omega

theorem length_border (t : DegreeTable) : t.border.length = t.header.length := by
  rw [border, Text.length_repeated, utf8ByteSize_header]

theorem width_eq (t : DegreeTable) : t.width = margin.length + t.border.length := by
  have hmargin : margin.utf8ByteSize = margin.length := by decide
  rw [width, hmargin, border, Text.utf8ByteSize_repeated (by decide), Text.length_repeated]

/-! ## The column of names -/

variable {records : List Degrees}

theorem length_nameHeader_le (records : List Degrees) :
    nameHeader.length ≤ (ofDegrees records).nameWidth :=
  Nat.le_trans (by decide) (Nat.le_max_right _ nameHeader.utf8ByteSize)

theorem length_name_le {d : Degrees} (h : d ∈ records) :
    d.name.length + 2 ≤ (ofDegrees records).nameWidth := by
  have hlongest : d.name.length ≤ (records.map (·.name.length)).foldr max 0 :=
    List.le_max_of_le' 0 (List.mem_map_of_mem h) (Nat.le_refl _)
  exact Nat.le_trans (Nat.add_le_add_right hlongest 2) (Nat.le_max_left _ _)

theorem length_header (records : List Degrees) :
    (ofDegrees records).header.length = 29 + (ofDegrees records).nameWidth := by
  have hname := length_nameHeader_le records
  have hnumber : numberHeader.length = 3 := by decide
  have hindegree : indegreeHeader.length = 10 := by decide
  have houtdegree : outdegreeHeader.length = 11 := by decide
  rw [header, length_row, hnumber, hindegree, houtdegree, Nat.max_eq_left hname]
  omega

/-! ## Rows -/

theorem length_body (records : List Degrees) :
    (ofDegrees records).body.length = records.length := by
  rw [body, List.length_map, List.length_zipIdx, ofDegrees, List.length_mergeSort]

theorem getElem?_body {t : DegreeTable} {i : Nat} {d : Degrees} (h : t.rows[i]? = some d) :
    t.body[i]? =
      some (t.row (Nat.repr (i + 1)) d.name (Nat.repr d.indegree) (Nat.repr d.outdegree)) := by
  rw [body, List.getElem?_map, List.getElem?_zipIdx, h, Nat.zero_add]
  rfl

theorem mem_of_rows {i : Nat} {d : Degrees} (h : (ofDegrees records).rows[i]? = some d) :
    d ∈ records :=
  List.mem_mergeSort.mp (List.mem_of_getElem? h)

/-- The numbers of a row are no wider than the headers of their columns. -/
def Fits (i : Nat) (d : Degrees) : Prop :=
  i + 1 < 10 ^ 3 ∧ d.indegree < 10 ^ 10 ∧ d.outdegree < 10 ^ 11

/-- A name never makes a row wider than the header, so that only its numbers can. -/
theorem length_row_eq_iff {i : Nat} {d : Degrees} (h : d ∈ records) :
    let table := ofDegrees records
    let row := table.row (Nat.repr (i + 1)) d.name (Nat.repr d.indegree) (Nat.repr d.outdegree)
    table.header.length ≤ row.length ∧ (row.length = table.header.length ↔ Fits i d) := by
  intro table row
  have hname : d.name.length + 2 ≤ table.nameWidth := length_name_le h
  have hheader : table.header.length = 29 + table.nameWidth := length_header records
  rw [hheader, length_row, Fits, ← Nat.length_repr_le_iff (by decide),
    ← Nat.length_repr_le_iff (by decide), ← Nat.length_repr_le_iff (by decide)]
  omega

/-- **When the table lines up.** The border is as wide as the header, and the table is as wide as
the border and its margin. Each row shows its number, its name and its degrees whole; the cells of
the names are all as wide as their column, which leaves two places beside the longest. A row is as
wide as the header if its number has at most three digits, its indegree at most ten and its
outdegree at most eleven, and wider in every other case. -/
theorem lines_up_iff (records : List Degrees) :
    let table := ofDegrees records
    table.border.length = table.header.length ∧
    table.width = margin.length + table.border.length ∧
    (∀ d ∈ records, d.name.length + 2 ≤ table.nameWidth) ∧
    table.body.length = records.length ∧
    ∀ (i : Nat) (d : Degrees), table.rows[i]? = some d →
      ∃ number name indegree outdegree,
        let row := "|" ++ number ++ "|" ++ name ++ "|" ++ indegree ++ "|" ++ outdegree ++ "|"
        table.body[i]? = some row ∧
        Text.IsCell (Nat.repr (i + 1)) number ∧ Text.IsCell d.name name ∧
        Text.IsCell (Nat.repr d.indegree) indegree ∧ Text.IsCell (Nat.repr d.outdegree) outdegree ∧
        name.length = table.nameWidth ∧
        table.header.length ≤ row.length ∧ (row.length = table.header.length ↔ Fits i d) := by
  intro table
  refine ⟨length_border table, width_eq table, fun d hd => length_name_le hd, length_body records,
    fun i d hrow => ?_⟩
  have hmem := mem_of_rows hrow
  have hname : d.name.length ≤ table.nameWidth :=
    Nat.le_trans (Nat.le_add_right _ 2) (length_name_le hmem)
  refine ⟨_, _, _, _, (getElem?_body hrow).trans (congrArg some (row_eq ..)),
    Text.isCell_pad .left 3 _, Text.isCell_pad .left _ _, Text.isCell_pad .right 10 _,
    Text.isCell_pad .right 11 _, ?_, ?_⟩
  · rw [Text.length_pad, Nat.max_eq_left hname]
  · rw [← row_eq]
    exact length_row_eq_iff hmem

/-- A column of names in characters of several bytes lines up with the header, and a number that is
too wide moves the end of its row to the right. -/
example :
    (ofDegrees [⟨"Menü", 0, 7⟩, ⟨"Karte", 12345678901, 0⟩]).body =
      ["|1  |Karte  |12345678901|          0|", "|2  |Menü   |         0|          7|"] := by
  cbv

end DegreeTable

end ComponentGraph
