import Mathlib.Algebra.GroupWithZero.Nat
import Mathlib.Data.Prod.Lex
import ShadowImpl.Proofs.Carets

/-!
# Offsets as lines and columns

An offset and its position, a line and a column, say the same. The offset counts the lines above,
each with its line feed, and what stands in front of the column. A position belongs to the text if
its line is one of the lines and its column is at a character of that line or right behind the last
one; each such position is that of one offset, and later offsets have later positions.
-/

namespace ShadowImpl

variable {text line : List Char} {p q : Position} {s e o n : Nat}

/-! ## Lines and their line feeds -/

namespace Text

theorem lines_eq_splitOn (text : List Char) : lines text = text.splitOn '\n' := by
  induction text with
  | nil => rfl
  | cons c text ih =>
    -- what is no line feed goes in front of the first line, which there always is
    have hne := List.splitOn_ne_nil '\n' text
    rw [lines, List.splitOn_cons_eq_if_modifyHead, ih, beq_eq_decide]
    cases htext : text.splitOn '\n' with
    | nil => exact absurd htext hne
    | cons l ls => simp only [decide_eq_true_eq, List.modifyHead_cons]

theorem intercalate_lines (text : List Char) : ['\n'].intercalate (lines text) = text := by
  rw [lines_eq_splitOn, List.intercalate_splitOn]

theorem not_mem_of_mem_lines (h : line ∈ lines text) : '\n' ∉ line := by
  induction text generalizing line with
  | nil => simp_all [lines]
  | cons c text ih =>
    rw [lines] at h
    split at h
    · rcases List.mem_cons.mp h with rfl | h
      · exact List.not_mem_nil
      · exact ih h
    · rename_i hc
      split at h
      · obtain rfl := List.mem_singleton.mp h
        rw [List.mem_singleton]
        exact Ne.symm hc
      · rename_i l ls hlines
        rw [hlines] at ih
        rcases List.mem_cons.mp h with rfl | h
        · rw [List.mem_cons, not_or]
          exact ⟨Ne.symm hc, ih List.mem_cons_self⟩
        · exact ih (List.mem_cons_of_mem _ h)

/-- The lines, each with the line feed that ends it. -/
def withFeeds (ls : List (List Char)) : List Char :=
  ls.flatMap (· ++ ['\n'])

theorem length_withFeeds (ls : List (List Char)) :
    (withFeeds ls).length = (ls.map List.length).sum + ls.length := by
  induction ls with
  | nil => rfl
  | cons l ls ih =>
    rw [withFeeds, List.flatMap_cons, List.length_append, List.length_append, List.length_singleton,
      ← withFeeds, ih, List.map_cons, List.sum_cons, List.length_cons]
    omega

theorem count_withFeeds {ls : List (List Char)} (h : ∀ l ∈ ls, '\n' ∉ l) :
    (withFeeds ls).count '\n' = ls.length := by
  induction ls with
  | nil => rfl
  | cons l ls ih =>
    rw [List.forall_mem_cons] at h
    rw [withFeeds, List.flatMap_cons, List.count_append, List.count_append, ← withFeeds, ih h.2,
      List.count_eq_zero.mpr h.1, List.count_singleton_self, List.length_cons]
    omega

theorem withFeeds_cases (ls : List (List Char)) :
    withFeeds ls = [] ∨ (withFeeds ls).getLast? = some '\n' := by
  rcases List.eq_nil_or_concat ls with rfl | ⟨ls, l, rfl⟩
  · exact .inl rfl
  · right
    rw [withFeeds, List.concat_eq_append, List.flatMap_append, List.flatMap_singleton,
      ← List.append_assoc]
    exact List.getLast?_concat ..

/-- In front of the line stand those above it. Each of them has its line feed, which only the last
line of all lacks. -/
theorem exists_below {ls : List (List Char)} (h : ls[n]? = some line) :
    ∃ below, ['\n'].intercalate ls = withFeeds (ls.take n) ++ (line ++ below) := by
  -- a line that has another one below is joined to it by its line feed
  induction ls generalizing n with
  | nil => simp at h
  | cons l ls ih =>
    cases n with
    | zero =>
      obtain rfl : l = line := by simpa using h
      cases ls with
      | nil => exact ⟨[], by simp [withFeeds]⟩
      | cons l' ls =>
        refine ⟨['\n'] ++ ['\n'].intercalate (l' :: ls), ?_⟩
        rw [List.intercalate_cons_cons, List.append_assoc]
        rfl
    | succ n =>
      rw [List.getElem?_cons_succ] at h
      obtain ⟨below, hbelow⟩ := ih h
      cases ls with
      | nil => simp at h
      | cons l' ls =>
        refine ⟨below, ?_⟩
        rw [List.intercalate_cons_cons, hbelow, List.take_succ_cons, withFeeds, withFeeds,
          List.flatMap_cons, List.append_assoc (l ++ ['\n'])]

end Text

/-! ## Positions of a text -/

namespace Position

/-- A position of the text: the column is that of a character of its line, or is right
behind the last one. -/
structure Within (text : List Char) (p : Position) : Prop where
  line : 1 ≤ p.line ∧ p.line ≤ (Text.lines text).length
  column : ∃ line, (Text.lines text)[p.line - 1]? = some line ∧
    1 ≤ p.column ∧ p.column ≤ line.length + 1

/-- The offset that a position stands for: the lengths of the lines above, their line feeds, and the
columns in front. -/
def offset (text : List Char) (p : Position) : Nat :=
  (((Text.lines text).take (p.line - 1)).map List.length).sum + (p.line - 1) + (p.column - 1)

theorem within_of (h : o ≤ text.length) : (of text o).Within text := by
  refine ⟨Diagnostic.line_bounds, _, (Text.onLine_of_le h).line, ?_⟩
  rw [Text.column_eq, List.length_append]
  omega

/-- A later offset has a later position. -/
theorem toLex_lt_of_lt (h : s < e) (he : e ≤ text.length) :
    toLex ((of text s).line, (of text s).column) < toLex
      ((of text e).line, (of text e).column) := by
  rw [Prod.Lex.toLex_lt_toLex]
  have hline : (of text e).line = _ := Text.line_of_le h.le
  by_cases heq : (of text s).line = (of text e).line
  · -- on one line the columns count what stands between the offsets
    have hcolumn := (Text.between_of_line_eq h.le heq).2
    have hpos : 0 < (Text.between text s e).length := by
      rw [Text.between, List.length_drop, List.length_take]
      omega
    exact .inr ⟨heq, by omega⟩
  · exact .inl (by omega)

theorem of_injective (hs : s ≤ text.length) (he : e ≤ text.length) (h : of text s = of text e) :
    s = e := by
  rcases Nat.lt_trichotomy s e with hlt | heq | hlt
  · exact absurd (toLex_lt_of_lt hlt he) (by rw [h]; exact lt_irrefl _)
  · exact heq
  · exact absurd (toLex_lt_of_lt hlt hs) (by rw [h]; exact lt_irrefl _)

namespace Within

/-- In front of a position stand the lines above and, on its own line, as much as its
column tells. -/
theorem exists_front (h : p.Within text) :
    ∃ front, Text.withFeeds ((Text.lines text).take (p.line - 1)) ++ front <+: text ∧
      '\n' ∉ front ∧ p.column = front.length + 1 ∧
      p.offset text = (Text.withFeeds ((Text.lines text).take (p.line - 1)) ++ front).length := by
  have hbound := h.line.2
  obtain ⟨line, hline, hpos, hcolumn⟩ := h.column
  obtain ⟨below, htext⟩ := Text.exists_below hline
  rw [Text.intercalate_lines] at htext
  have hfront : (line.take (p.column - 1)).length = p.column - 1 := by
    rw [List.length_take]
    omega
  refine ⟨line.take (p.column - 1), ⟨line.drop (p.column - 1) ++ below, ?_⟩, ?_, by omega, ?_⟩
  · rw [List.append_assoc, ← List.append_assoc (line.take _), List.take_append_drop]
    exact htext.symm
  · exact fun hmem => Text.not_mem_of_mem_lines (List.mem_of_getElem? hline)
      (List.mem_of_mem_take hmem)
  · rw [List.length_append, Text.length_withFeeds, hfront, List.length_take,
      Nat.min_eq_left (by omega), offset]

theorem offset_le (h : p.Within text) : p.offset text ≤ text.length := by
  obtain ⟨front, hprefix, -, -, hoffset⟩ := h.exists_front
  rw [hoffset]
  exact hprefix.length_le

/-- The offset of a position has that position. -/
theorem of_offset (h : p.Within text) : of text (p.offset text) = p := by
  obtain ⟨hpos, hbound⟩ := h.line
  obtain ⟨front, hprefix, hfront, hcolumn, hoffset⟩ := h.exists_front
  have htake : text.take (p.offset text) =
      Text.withFeeds ((Text.lines text).take (p.line - 1)) ++ front := by
    rw [hoffset]
    exact (List.prefix_iff_eq_take.mp hprefix).symm
  -- the line feeds in front are those of the lines above, as no line has one of its own
  have hlines : ∀ l ∈ (Text.lines text).take (p.line - 1), '\n' ∉ l :=
    fun l hl => Text.not_mem_of_mem_lines (List.mem_of_mem_take hl)
  have hcount : (text.take (p.offset text)).count '\n' = p.line - 1 := by
    rw [htake, List.count_append, Text.count_withFeeds hlines, List.count_eq_zero.mpr hfront,
      List.length_take, Nat.min_eq_left (by omega), Nat.add_zero]
  have hlast : Text.inFront text (p.offset text) = front := by
    rw [Text.inFront, htake]
    exact (Text.lastLine_append hfront (Text.withFeeds_cases _)).1
  have hline : (of text (p.offset text)).line = p.line := by
    simp only [of, hcount]
    omega
  have hcolumn' : (of text (p.offset text)).column = p.column := by
    rw [Text.column_eq, hlast, hcolumn]
  cases p
  exact congrArg₂ Position.mk hline hcolumn'

end Within

/-- The position of an offset stands for that offset. -/
theorem offset_of (h : o ≤ text.length) : (of text o).offset text = o :=
  of_injective (within_of h).offset_le h (within_of h).of_offset

end Position

/-! ## Locations of single characters -/

/-- The offset, moved into the text if it lies outside. -/
def Text.clamp (text : List Char) (offset : Int) : Int :=
  max 0 (min offset text.length)

theorem Text.clamp_eq (text : List Char) (offset : Int) :
    clamp text offset = (min offset.toNat text.length : Nat) := by
  rw [clamp]
  omega

namespace Location

variable {l : Location}

/-- The location starts at the position. -/
structure StartsAt (l : Location) (p : Position) : Prop where
  line : l.line = p.line
  column : l.column = p.column

theorem StartsAt.unique (hp : l.StartsAt p) (hq : l.StartsAt q) : p = q := by
  have hline := hp.line.symm.trans hq.line
  have hcolumn := hp.column.symm.trans hq.column
  cases p
  cases q
  exact congrArg₂ Position.mk (Int.ofNat_inj.mp hline) (Int.ofNat_inj.mp hcolumn)

theorem startsAt_point (file : String) (text : List Char) (offset : Int) :
    (point file text offset).StartsAt (Position.of text (min offset.toNat text.length)) :=
  ⟨rfl, rfl⟩

/-- A position of the text is that of one offset. -/
theorem existsUnique_point (file : String) (h : p.Within text) :
    ∃! o : Int, 0 ≤ o ∧ o ≤ text.length ∧ (point file text o).StartsAt p := by
  have hle := h.offset_le
  refine ⟨p.offset text, ⟨by omega, by omega, ?_⟩, ?_⟩
  · have hstart := startsAt_point file text (p.offset text)
    rwa [Int.toNat_natCast, Nat.min_eq_left hle, h.of_offset] at hstart
  · -- the position tells which offset it is
    rintro o ⟨hpos, hlen, ho⟩
    have hof := (startsAt_point file text o).unique ho
    have hoffset := Position.offset_of (Nat.min_le_right o.toNat text.length)
    rw [hof] at hoffset
    omega

/-- The locations of the single characters of a text, and the one at its end, enumerate its
positions: every offset, moved into the text if it lies outside, has a position that stands for it,
later ones have later positions, and no position is left out. -/
theorem points_enumerate_positions (file : String) (text : List Char) :
    (∀ offset : Int,
      (point file text offset).start = Text.clamp text offset ∧
        (point file text offset).stop = Text.clamp text offset + 1 ∧
        ∃ p : Position, (point file text offset).StartsAt p ∧ p.Within text ∧
          Text.clamp text offset = p.offset text) ∧
      (∀ offset offset' : Int, Text.clamp text offset < Text.clamp text offset' →
        toLex ((point file text offset).line, (point file text offset).column) <
          toLex ((point file text offset').line, (point file text offset').column)) ∧
      ∀ p : Position, p.Within text →
        ∃! o : Int, 0 ≤ o ∧ o ≤ text.length ∧ (point file text o).StartsAt p := by
  refine ⟨?_, ?_, fun p => existsUnique_point file⟩
  · intro offset
    have hle := Nat.min_le_right offset.toNat text.length
    rw [Text.clamp_eq]
    exact ⟨rfl, rfl, _, startsAt_point file text offset, Position.within_of hle,
      by rw [Position.offset_of hle]⟩
  · intro offset offset' hlt
    rw [Text.clamp_eq, Text.clamp_eq, Int.ofNat_lt] at hlt
    have hpositions := Position.toLex_lt_of_lt hlt (Nat.min_le_right offset'.toNat text.length)
    rw [Prod.Lex.toLex_lt_toLex] at hpositions ⊢
    exact hpositions.imp Int.ofNat_lt.mpr fun h => ⟨congrArg Int.ofNat h.1, Int.ofNat_lt.mpr h.2⟩

/-- The second line is empty, the last one has no line feed, and two of the offsets lie outside. -/
theorem points_enumerate_positions_empty_line :
    let text := "ab\n\nc".toList
    Text.clamp text (-7) < Text.clamp text 2 ∧ (Position.mk 2 1).Within text ∧
      (∃ p : Position, (point "a.rs" text 9).StartsAt p ∧ p.Within text ∧
        Text.clamp text 9 = p.offset text) ∧
      toLex ((point "a.rs" text (-7)).line, (point "a.rs" text (-7)).column) <
        toLex ((point "a.rs" text 2).line, (point "a.rs" text 2).column) ∧
      ∃! o : Int, 0 ≤ o ∧ o ≤ text.length ∧ (point "a.rs" text o).StartsAt ⟨2, 1⟩ := by
  have h := points_enumerate_positions "a.rs" "ab\n\nc".toList
  have hwithin : (Position.mk 2 1).Within "ab\n\nc".toList :=
    ⟨by decide, [], by decide, by decide, by decide⟩
  exact ⟨by decide, hwithin, (h.1 9).2.2, h.2.1 (-7) 2 (by decide), h.2.2 ⟨2, 1⟩ hwithin⟩

end Location
end ShadowImpl
