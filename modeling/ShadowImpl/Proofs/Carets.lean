import ShadowImpl.Diagnostic.Render
import ShadowImpl.Proofs.RemovedLines

/-!
# What the carets stand under

A diagnostic with a place shows the lines of the source from the one where its range starts up to
the one where it ends, each behind its number. The carets below the first of them stand under the
range, or, if it goes on below, under all of it that can be seen on that line.
-/

namespace ShadowImpl

/-! ## Offsets on lines -/

namespace Text

variable {text above front below : List Char} {o : Nat}

theorem lines_feed (h : '\n' ∉ front) (rest : List Char) :
    lines (front ++ '\n' :: rest) = front :: lines rest := by
  induction front with
  | nil => rw [List.nil_append, lines, if_pos rfl]
  | cons c front ih =>
    rw [List.mem_cons, not_or] at h
    rw [List.cons_append, lines, if_neg (Ne.symm h.1), ih h.2]

theorem lines_of_not_mem (h : '\n' ∉ front) : lines front = [front] := by
  induction front with
  | nil => rfl
  | cons c front ih =>
    rw [List.mem_cons, not_or] at h
    rw [lines, if_neg (Ne.symm h.1), ih h.2]

theorem length_lines (s : List Char) : (lines s).length = s.count '\n' + 1 := by
  induction s with
  | nil => rfl
  | cons c s ih =>
    unfold lines
    split
    · rename_i hc
      rw [List.length_cons, ih, hc, List.count_cons_self]
    · rename_i hc
      rw [List.count_cons_of_ne hc, ← ih]
      split
      · rename_i hnil
        rw [hnil] at ih
        simp at ih
      · rename_i hcons
        rw [hcons]
        rfl

/-- What stands between two line feeds is the line whose number is that of the line feeds above. -/
theorem getElem?_lines (habove : above = [] ∨ above.getLast? = some '\n') (hfront : '\n' ∉ front)
    (hbelow : below = [] ∨ below.head? = some '\n') :
    (lines (above ++ (front ++ below)))[above.count '\n']? = some front := by
  -- each line feed above puts one more line in front
  induction above with
  | nil =>
    rw [List.nil_append, List.count_nil]
    rcases hbelow with rfl | hbelow
    · rw [List.append_nil, lines_of_not_mem hfront]
      rfl
    · obtain ⟨r, rfl⟩ := List.head?_eq_some_iff.mp hbelow
      rw [lines_feed hfront]
      rfl
  | cons c above ih =>
    have hlast : above = [] ∧ c = '\n' ∨ above.getLast? = some '\n' := by
      cases above with
      | nil => simpa using habove
      | cons d above => simpa using habove
    have hline := ih (hlast.imp And.left id)
    rw [List.cons_append, lines]
    split
    · rename_i hc
      rw [hc, List.count_cons_self, List.getElem?_cons_succ]
      exact hline
    · rename_i hc
      -- the line that `c` stands on ends above
      have hfeed : '\n' ∈ above := by
        rcases hlast with ⟨-, h⟩ | h
        · exact absurd h hc
        · exact List.mem_of_getLast? h
      obtain ⟨k, hk⟩ := Nat.exists_eq_succ_of_ne_zero (List.count_pos_iff.mpr hfeed).ne'
      rw [hk] at hline
      rw [List.count_cons_of_ne hc, hk]
      split
      · rename_i hnil
        rw [hnil] at hline
        simp at hline
      · rename_i hcons
        rw [hcons] at hline
        exact hline

/-- The offset `o` stands on the line `n` of the text, between `front` and `rest`. -/
structure OnLine (text : List Char) (o n : Nat) (front rest : List Char) : Prop where
  line : (lines text)[n - 1]? = some (front ++ rest)
  split : ∃ above below, text = above ++ (front ++ rest) ++ below ∧ above.length + front.length = o

/-- What stands on the line of an offset in front of it. -/
def inFront (text : List Char) (o : Nat) : List Char :=
  lastLine (text.take o)

/-- What stands on the line of an offset from it on. -/
def onwards (text : List Char) (o : Nat) : List Char :=
  (text.drop o).takeWhile (· ≠ '\n')

theorem not_mem_onwards (text : List Char) (o : Nat) : '\n' ∉ onwards text o := by
  intro h
  have := List.mem_takeWhile_imp h
  simp at this

theorem below_cases (s : List Char) :
    s.dropWhile (· ≠ '\n') = [] ∨ (s.dropWhile (· ≠ '\n')).head? = some '\n' := by
  cases h : s.dropWhile (· ≠ '\n') with
  | nil => exact .inl rfl
  | cons c r =>
    have hhead := List.head?_dropWhile_not (· ≠ '\n') s
    rw [h] at hhead
    exact .inr (by simpa using hhead)

theorem eq_above_append (text : List Char) (o : Nat) :
    text = beforeLastLine (text.take o) ++
      ((inFront text o ++ onwards text o) ++ (text.drop o).dropWhile (· ≠ '\n')) := by
  calc text = text.take o ++ text.drop o := (List.take_append_drop o text).symm
    _ = (beforeLastLine (text.take o) ++ inFront text o) ++
        (onwards text o ++ (text.drop o).dropWhile (· ≠ '\n')) := by
      rw [inFront, beforeLastLine_append_lastLine, onwards, List.takeWhile_append_dropWhile]
    _ = _ := by simp only [List.append_assoc]

theorem count_beforeLastLine (s : List Char) : (beforeLastLine s).count '\n' = s.count '\n' := by
  calc (beforeLastLine s).count '\n'
      = (beforeLastLine s).count '\n' + (lastLine s).count '\n' := by
        rw [List.count_eq_zero.mpr (not_mem_lastLine s), Nat.add_zero]
    _ = s.count '\n' := by rw [← List.count_append, beforeLastLine_append_lastLine]

/-- Every offset stands on its line. -/
theorem onLine_of_le (h : o ≤ text.length) :
    OnLine text o (Position.of text o).line (inFront text o) (onwards text o) := by
  constructor
  · have hfront : '\n' ∉ inFront text o ++ onwards text o := by
      rw [List.mem_append, not_or]
      exact ⟨not_mem_lastLine _, not_mem_onwards text o⟩
    have hline := getElem?_lines (beforeLastLine_cases (text.take o)) hfront
      (below_cases (text.drop o))
    rw [← eq_above_append, count_beforeLastLine] at hline
    exact hline
  · refine ⟨beforeLastLine (text.take o), (text.drop o).dropWhile (· ≠ '\n'), ?_, ?_⟩
    · rw [List.append_assoc]
      exact eq_above_append text o
    · rw [← List.length_append, inFront, beforeLastLine_append_lastLine, List.length_take,
        Nat.min_eq_left h]

theorem column_eq (text : List Char) (o : Nat) :
    (Position.of text o).column = (inFront text o).length + 1 := by
  simp only [Position.of, inFront, lastLine, List.length_reverse]

/-- The text between two offsets. -/
def between (text : List Char) (s e : Nat) : List Char :=
  (text.take e).drop s

variable {s e : Nat}

theorem take_append_between (h : s ≤ e) : text.take s ++ between text s e = text.take e := by
  calc text.take s ++ between text s e = (text.take e).take s ++ (text.take e).drop s := by
        rw [List.take_take, Nat.min_eq_left h, between]
    _ = text.take e := List.take_append_drop s (text.take e)

theorem line_of_le (h : s ≤ e) :
    (Position.of text e).line = (Position.of text s).line + (between text s e).count '\n' := by
  simp only [Position.of]
  rw [← take_append_between h, List.count_append]
  omega

/-- A range on one line: it starts what stands on the line from its start on, and its columns are
those of its characters. -/
theorem between_of_line_eq (h : s ≤ e)
    (hline : (Position.of text s).line = (Position.of text e).line) :
    between text s e <+: onwards text s ∧
      (Position.of text e).column = (Position.of text s).column + (between text s e).length := by
  -- The line does not change where there is no line feed.
  have hfeed : '\n' ∉ between text s e := by
    rw [← List.count_eq_zero]
    have hcount : (Position.of text e).line = _ := line_of_le h
    omega
  constructor
  · have hdrop : text.drop s = between text s e ++ text.drop e := by
      rw [between, List.drop_take]
      conv_lhs => rw [← List.take_append_drop (e - s) (text.drop s)]
      rw [List.drop_drop, Nat.add_sub_cancel' h]
    have hall : ∀ c ∈ between text s e, decide (c ≠ '\n') = true := by
      intro c hc
      simpa using fun heq : c = '\n' => hfeed (heq ▸ hc)
    rw [onwards, hdrop, List.takeWhile_append_of_pos hall]
    exact List.prefix_append _ _
  · have hlast : inFront text e = inFront text s ++ between text s e := by
      have hfront : '\n' ∉ inFront text s ++ between text s e := by
        rw [List.mem_append, not_or]
        exact ⟨not_mem_lastLine _, hfeed⟩
      have := (lastLine_append hfront (beforeLastLine_cases (text.take s))).1
      rwa [← List.append_assoc, inFront, beforeLastLine_append_lastLine,
        take_append_between h] at this
    rw [column_eq, column_eq, hlast, List.length_append]
    omega

/-- The text can be seen up to `width`: up to its last character that is not blank. A blank text
counts as one character wide. -/
structure SeenUpTo (s : List Char) (width : Nat) : Prop where
  blank : (∀ c ∈ s, isBlank c = true) → width = 1
  last : ∀ front c blanks, s = front ++ c :: blanks → isBlank c = false →
    (∀ b ∈ blanks, isBlank b = true) → width = front.length + 1

theorem length_trimEnd_le (s : List Char) : (trimEnd s).length ≤ s.length := by
  unfold trimEnd
  have hle := (List.dropWhile_sublist isBlank (l := s.reverse)).length_le
  rwa [List.length_reverse] at hle ⊢

theorem trimEnd_append_blanks {blanks : List Char} (h : ∀ c ∈ blanks, isBlank c = true)
    (s : List Char) : trimEnd (s ++ blanks) = trimEnd s := by
  rw [trimEnd, List.reverse_append, List.dropWhile_append_of_pos (by simpa using h), trimEnd]

theorem trimEnd_concat {c : Char} (h : isBlank c = false) (s : List Char) :
    trimEnd (s ++ [c]) = s ++ [c] := by
  rw [trimEnd, List.reverse_append, List.reverse_singleton, List.singleton_append,
    List.dropWhile_cons_of_neg (by simp [h]), List.reverse_cons, List.reverse_reverse]

theorem seenUpTo (front rest : List Char) :
    SeenUpTo rest (max 1 ((trimEnd (front ++ rest)).length - front.length)) := by
  constructor
  · intro h
    have hle : (trimEnd (front ++ rest)).length ≤ front.length := by
      rw [trimEnd_append_blanks h]
      exact length_trimEnd_le front
    omega
  · intro seen c blanks hrest hc hblanks
    have htrim : trimEnd (front ++ rest) = front ++ seen ++ [c] := by
      calc trimEnd (front ++ rest) = trimEnd (front ++ seen ++ [c] ++ blanks) := by
            rw [hrest]
            simp only [List.append_assoc, List.singleton_append]
        _ = front ++ seen ++ [c] := by rw [trimEnd_append_blanks hblanks, trimEnd_concat hc]
    rw [htrim, List.length_append, List.length_append, List.length_singleton]
    omega

/-- The lines with the numbers `first` to `last`, if there are all of them. -/
def linesBetween? (lines : List (List Char)) (first last : Nat) : Option (List (List Char)) :=
  (List.range' first (last + 1 - first)).mapM fun n => lines[n - 1]?

theorem linesBetween?_eq {lines : List (List Char)} {first last : Nat} (hfirst : 0 < first)
    (hlast : last ≤ lines.length) :
    linesBetween? lines first last = some ((lines.drop (first - 1)).take (last + 1 - first)) := by
  unfold linesBetween?
  have hle : first + (last + 1 - first) ≤ max first (lines.length + 1) := by omega
  generalize last + 1 - first = count at hle
  clear hlast
  induction count generalizing first with
  | zero => rw [List.take_zero]; rfl
  | succ count ih =>
    have hlt : first - 1 < lines.length := by omega
    have hmore := ih (by omega : 0 < first + 1) (by omega)
    rw [Nat.add_sub_cancel] at hmore
    rw [List.range'_succ, List.mapM_cons, hmore, List.getElem?_eq_getElem hlt,
      List.drop_eq_getElem_cons hlt, List.take_succ_cons, Nat.sub_add_cancel hfirst]
    rfl

end Text

/-! ## Margins -/

/-- What stands in front of a line: its number, set to the right in `gutter` columns. -/
def margin (gutter : Nat) (number : String) : String :=
  rule (gutter - number.length) ' ' ++ number ++ " | "

theorem length_rule (n : Nat) (c : Char) : (rule n c).length = n := by
  rw [rule, String.length_ofList, List.length_replicate]

theorem length_margin {gutter : Nat} {number : String} (h : number.length ≤ gutter) :
    (margin gutter number).length = gutter + 3 := by
  rw [margin, String.length_append, String.length_append, length_rule, Nat.sub_add_cancel h]
  rfl

/-- A smaller number has no more digits. -/
theorem length_repr_le {m n : Nat} (h : m ≤ n) : m.repr.length ≤ n.repr.length := by
  have hlength (k : Nat) : k.repr.length = (Nat.toDigits 10 k).length := by
    rw [← String.length_toList, Nat.toList_repr]
  have hpos : 0 < (Nat.toDigits 10 n).length := Nat.length_toDigits_pos
  rw [hlength, hlength, Nat.length_toDigits_le_iff (by omega) hpos]
  calc m ≤ n := h
    _ < 10 ^ (Nat.toDigits 10 n).length :=
      (Nat.length_toDigits_le_iff (by omega) hpos).mp (Nat.le_refl _)

/-! ## Echoed lines -/

namespace Location

variable {l : Location} {count : Nat}

/-- No line below the last one is shown. -/
theorem lastLine_bounds (hline : l.line ≤ count) :
    l.line ≤ l.lastLine count ∧ l.lastLine count ≤ count := by
  unfold lastLine
  split <;> omega

/-- The carets of a location on one line reach up to its end. -/
theorem width_of_columns (hline : l.endLine ≤ l.line) (hcolumn : l.column < l.endColumn)
    (line : List Char) : l.width line = (l.endColumn - l.column).toNat := by
  rw [width, if_neg (by omega), if_pos hcolumn]

/-- The location has the lines and columns of the offsets `s` and `e` of a text. -/
structure Covers (l : Location) (text : List Char) (s e : Nat) : Prop where
  line : l.line = (Position.of text s).line
  column : l.column = (Position.of text s).column
  endLine : l.endLine = (Position.of text e).line
  endColumn : l.endColumn = (Position.of text e).column

theorem covers_range (file : String) (text : List Char) (s e : Nat) :
    (range file text s e).Covers text s e :=
  ⟨rfl, rfl, rfl, rfl⟩

end Location

namespace Diagnostic

variable {d : Diagnostic} {sources : Sources} {l : Location} {text : String}

/-- What stands behind the carets. -/
def caption (d : Diagnostic) : String :=
  match nonempty? d.label with
  | some label => " " ++ label
  | none => ""

/-- The rows that echo the lines from the number `first` on, with `width` carets below the first of
them behind `skip` columns. -/
def echo (d : Diagnostic) (gutter first skip width : Nat) : List (List Char) → List String
  | [] => []
  | line :: more =>
    (margin gutter first.repr ++ String.ofList line) ::
      (margin gutter "" ++ (rule skip ' ' ++ rule width '^' ++ d.caption)) ::
      more.mapIdx fun i line => margin gutter (first + 1 + i).repr ++ String.ofList line

/-- Rendered without colour the diagnostic echoes the lines `first` to `last` of the text, none of
which is missing, behind margins of one width. -/
structure Echo (d : Diagnostic) (sources : Sources) (l : Location) (text : String)
    (first last skip width gutter : Nat) (shown : List (List Char)) : Prop where
  pos : 0 < first
  lines : Text.linesBetween? (Text.lines text.toList) first last = some shown
  margins : ∀ n, first ≤ n → n ≤ last → (margin gutter n.repr).length = (margin gutter "").length
  render : d.render sources false = Text.join "\n" (
    [d.headline.write false, rule gutter ' ' ++ "--> " ++ l.print, rule gutter ' ' ++ " |"] ++
      d.echo gutter first skip width shown ++ (d.remarks gutter).map (Line.write false))

/-- There is a rendering that echoes the lines `first` to `last`. -/
def Echoes (d : Diagnostic) (sources : Sources) (l : Location) (text : String)
    (first last skip width : Nat) : Prop :=
  ∃ gutter shown, d.Echo sources l text first last skip width gutter shown

/-- Rendered without colour the diagnostic echoes no line. -/
def EchoesNothing (d : Diagnostic) (sources : Sources) : Prop :=
  ∃ gutter place, d.render sources false = Text.join "\n" (
    [d.headline.write false, rule gutter ' ' ++ "--> " ++ place] ++
      (d.remarks gutter).map (Line.write false))

theorem write_pair (p q : Piece) : Line.write false [p, q] = p.text ++ q.text := by
  simp [Line.write, Piece.write, String.join]

theorem write_single (p : Piece) : Line.write false [p] = p.text := by
  simp [Line.write, Piece.write, String.join]

theorem margin_empty (gutter : Nat) : margin gutter "" = rule gutter ' ' ++ " | " := by
  simp [margin]

theorem write_numbered (gutter n : Nat) (line : List Char) :
    (numbered gutter n line).write false = margin gutter n.repr ++ String.ofList line := by
  rw [numbered, write_pair, margin]

theorem underline_eq (d : Diagnostic) (l : Location) (line : List Char) :
    d.underline l line = rule l.indent ' ' ++ rule (l.width line) '^' ++ d.caption :=
  rfl

theorem map_write_mapIdx (gutter first : Nat) (more : List (List Char)) :
    (more.mapIdx fun i line => numbered gutter (first + i) line).map (Line.write false) =
      more.mapIdx fun i line => margin gutter (first + i).repr ++ String.ofList line := by
  apply List.ext_getElem?
  intro i
  rw [List.getElem?_map, List.getElem?_mapIdx, List.getElem?_mapIdx, Option.map_map]
  simp only [Function.comp_def, write_numbered]

theorem map_write_excerpt (d : Diagnostic) (gutter : Nat) {lines : List (List Char)}
    {line : List Char} (hfirst : 0 < l.line) (hline : l.line ≤ lines.length)
    (h : lines[l.line.toNat - 1]? = some line) :
    (d.excerpt l lines gutter).map (Line.write false) =
      (rule gutter ' ' ++ " |") :: d.echo gutter l.line.toNat l.indent (l.width line)
        ((lines.drop (l.line.toNat - 1)).take
          ((l.lastLine lines.length).toNat + 1 - l.line.toNat)) := by
  obtain ⟨hlt, hget⟩ := List.getElem?_eq_some_iff.mp h
  have hbounds := Location.lastLine_bounds hline
  have hcount : (l.lastLine lines.length).toNat + 1 - l.line.toNat =
      (l.lastLine lines.length - l.line).toNat + 1 := by omega
  simp only [excerpt]
  rw [hcount, List.drop_eq_getElem_cons hlt, List.take_succ_cons, hget]
  simp only [List.map_cons, map_write_mapIdx, write_single, write_numbered,
    write_pair, underline_eq, ← margin_empty]
  rfl

/-- A line of a text is echoed, with those below it that belong to the range. -/
theorem echoes_of_location {line : List Char} (hd : d.location = some l)
    (htext : sources.lookup l.file = some text) (hfirst : 0 < l.line)
    (hline : l.line ≤ (Text.lines text.toList).length)
    (h : (Text.lines text.toList)[l.line.toNat - 1]? = some line) :
    d.Echoes sources l text l.line.toNat (l.lastLine (Text.lines text.toList).length).toNat l.indent
      (l.width line) := by
  have hbounds := Location.lastLine_bounds hline
  have hexcerpt (gutter : Nat) := map_write_excerpt d gutter hfirst hline h
  generalize hlast : l.lastLine (Text.lines text.toList).length = last at hbounds hexcerpt
  have hgutter : Text.decimal last = last.toNat.repr := by
    conv_lhs => rw [← Int.toNat_of_nonneg (by omega : 0 ≤ last)]
    rfl
  refine ⟨last.toNat.repr.length, _, by omega, Text.linesBetween?_eq (by omega) (by omega), ?_, ?_⟩
  -- the number of the last line is the longest
  · intro n _ hn
    rw [length_margin (length_repr_le hn), length_margin (Nat.zero_le _)]
  · simp only [render, layout, hd, htext, Option.map_some, Option.getD_some, hlast, hgutter,
      if_pos (And.intro hfirst hline), List.map_cons, List.map_append, write_pair, hexcerpt]
    rfl

/-- No other line is echoed. -/
theorem echoesNothing_of_location
    (h : ∀ l text, d.location = some l → sources.lookup l.file = some text →
      ¬ (0 < l.line ∧ l.line ≤ (Text.lines text.toList).length)) :
    d.EchoesNothing sources := by
  cases hd : d.location with
  | none =>
    refine ⟨1, "<unknown location>", ?_⟩
    simp only [render, layout, hd, List.map_cons, write_pair]
    rfl
  | some l =>
    refine ⟨(Text.decimal (l.lastLine (((sources.lookup l.file).map fun text =>
      Text.lines text.toList).getD []).length)).length, l.print, ?_⟩
    cases htext : sources.lookup l.file with
    | none =>
      simp only [render, layout, hd, htext, Option.map_none, List.map_cons,
        List.map_append, write_pair]
      rfl
    | some text =>
      simp only [render, layout, hd, htext, Option.map_some,
        if_neg (h l text hd htext), List.map_cons, List.map_append, write_pair]
      rfl

/-- The carets of the diagnostic stand under what is between the offsets `s` and `e` of the text. On
the line of `s` stands `front` in front of it. -/
structure PointsAt (d : Diagnostic) (sources : Sources) (l : Location) (text : String) (s e : Nat)
    (front rest : List Char) (width : Nat) : Prop where
  onLine : Text.OnLine text.toList s (Position.of text.toList s).line front rest
  order : (Position.of text.toList s).line ≤ (Position.of text.toList e).line
  echoes : d.Echoes sources l text (Position.of text.toList s).line (Position.of text.toList e).line
    front.length width
  oneLine : (Position.of text.toList s).line = (Position.of text.toList e).line →
    Text.between text.toList s e <+: rest ∧ width = (Text.between text.toList s e).length
  moreLines : (Position.of text.toList s).line < (Position.of text.toList e).line →
    Text.SeenUpTo rest width

/-- The line of an offset is one of the lines of the text. -/
theorem line_bounds {text : List Char} {o : Nat} :
    0 < (Position.of text o).line ∧ (Position.of text o).line ≤ (Text.lines text).length := by
  rw [Text.length_lines]
  have hle : (text.take o).count '\n' ≤ text.count '\n' := (List.take_sublist o text).count_le _
  simp only [Position.of]
  omega

/-- The lines from that of the offset `o` on are echoed, with the carets behind what stands
in front of it. -/
theorem echoes_of_position {o last : Nat} (hd : d.location = some l)
    (htext : sources.lookup l.file = some text) (hline : l.line = (Position.of text.toList o).line)
    (hcolumn : l.column = (Position.of text.toList o).column) (hend : l.endLine = last)
    (ho : o ≤ text.toList.length) (hlast : (Position.of text.toList o).line ≤ last)
    (hcount : last ≤ (Text.lines text.toList).length) :
    d.Echoes sources l text (Position.of text.toList o).line last
      (Text.inFront text.toList o).length
      (l.width (Text.inFront text.toList o ++ Text.onwards text.toList o)) := by
  have hbounds : 0 < (Position.of text.toList o).line ∧ _ := line_bounds
  have hfirst : l.line.toNat = (Position.of text.toList o).line := by
    rw [hline]
    rfl
  have hindent : l.indent = (Text.inFront text.toList o).length := by
    rw [Location.indent, hcolumn, Text.column_eq]
    omega
  have hlastLine : (l.lastLine (Text.lines text.toList).length).toNat = last := by
    rw [Location.lastLine, hline, hend]
    split <;> omega
  have hechoes := echoes_of_location hd htext (by omega) (by omega)
    (by rw [hfirst]; exact (Text.onLine_of_le ho).line)
  rwa [hfirst, hlastLine, hindent] at hechoes

/-- A diagnostic for a range points at it. -/
theorem pointsAt_of_covers {s e : Nat} (hd : d.location = some l)
    (htext : sources.lookup l.file = some text) (hs : s < e) (he : e ≤ text.toList.length)
    (hl : l.Covers text.toList s e) :
    ∃ front rest width, d.PointsAt sources l text s e front rest width := by
  have horder : (Position.of text.toList s).line ≤ (Position.of text.toList e).line := by
    rw [Text.line_of_le hs.le]
    exact Nat.le_add_right _ _
  refine ⟨_, _, _, Text.onLine_of_le (by omega), horder,
    echoes_of_position hd htext hl.line hl.column hl.endLine
      (by omega) horder line_bounds.2, ?_, ?_⟩
  · -- on one line the columns count the characters of the range
    intro hline
    obtain ⟨hstarts, hcolumn⟩ := Text.between_of_line_eq hs.le hline
    have hpos : 0 < (Text.between text.toList s e).length := by
      rw [Text.between, List.length_drop, List.length_take]
      omega
    refine ⟨hstarts, ?_⟩
    rw [Location.width_of_columns (by rw [hl.line, hl.endLine]; omega)
      (by rw [hl.column, hl.endColumn]; omega), hl.column, hl.endColumn, hcolumn]
    omega
  · -- on more lines the end of the first one decides
    intro hline
    have hindent : l.indent = (Text.inFront text.toList s).length := by
      rw [Location.indent, hl.column, Text.column_eq]
      omega
    rw [Location.width, hindent, hl.line, hl.endLine, if_pos (by omega)]
    exact Text.seenUpTo _ _

/-- A diagnostic for a single place has one caret, in the column of the place. -/
theorem echoes_point {file : String} {o : Int} (hd : d.location = some (.point file text.toList o))
    (htext : sources.lookup file = some text) :
    ∃ n front rest, Text.OnLine text.toList (min o.toNat text.toList.length) n front rest ∧
      d.Echoes sources (.point file text.toList o) text n n front.length 1 := by
  have ho := Nat.min_le_right o.toNat text.toList.length
  have hechoes := echoes_of_position hd htext rfl rfl rfl ho (Nat.le_refl _) line_bounds.2
  have hwidth (line : List Char) : (Location.point file text.toList o).width line = 1 := by
    have hend : (Location.point file text.toList o).endLine =
      (Location.point file text.toList o).line := rfl
    have hcolumn : (Location.point file text.toList o).endColumn =
        (Location.point file text.toList o).column + 1 := rfl
    rw [Location.width_of_columns (by omega) (by omega)]
    omega
  rw [hwidth] at hechoes
  exact ⟨_, _, _, Text.onLine_of_le ho, hechoes⟩

/-- The carets of a diagnostic for a range of a text stand under this range, and those of one for a
single place under that place. No diagnostic at all, whatever its location, asks for a line that its
text does not have. -/
theorem carets_under_location (d : Diagnostic) (sources : Sources) :
    ((∃ l text first last skip width, d.location = some l ∧ sources.lookup l.file = some text ∧
        d.Echoes sources l text first last skip width) ∨ d.EchoesNothing sources) ∧
      (∀ l text s e, d.location = some l → sources.lookup l.file = some text → s < e →
        e ≤ text.toList.length → l.Covers text.toList s e →
          ∃ front rest width, d.PointsAt sources l text s e front rest width) ∧
      ∀ file text o, d.location = some (.point file text.toList o) →
      sources.lookup file = some text →
        ∃ n front rest, Text.OnLine text.toList (min o.toNat text.toList.length) n front rest ∧
          d.Echoes sources (.point file text.toList o) text n n front.length 1 := by
  refine ⟨?_, fun l text s e => pointsAt_of_covers, fun file text o => echoes_point⟩
  by_cases h : ∃ l text, d.location = some l ∧ sources.lookup l.file = some text ∧
      0 < l.line ∧ l.line ≤ (Text.lines text.toList).length
  · obtain ⟨l, text, hd, htext, hfirst, hline⟩ := h
    have hlt : l.line.toNat - 1 < (Text.lines text.toList).length := by omega
    exact .inl ⟨l, text, _, _, _, _, hd, htext,
      echoes_of_location hd htext hfirst hline (List.getElem?_eq_getElem hlt)⟩
  · apply Or.inr
    apply echoesNothing_of_location
    intro l text hd htext hl
    exact h ⟨l, text, hd, htext, hl⟩

/-- The ninth line of this text goes on with the tenth, which is the last but one. -/
def tenLines : String := "\n\n\n\n\n\n\n\nx y \x7b  \n\x7d\n"

/-- A diagnostic that points into these lines. -/
def inTenLines (l : Location) : Diagnostic where
  message := "unclosed"
  location := some l
  label := some "here"

theorem carets_under_ninth_and_last_line :
    (∃ front rest width, (inTenLines (.range "a.rs" tenLines.toList 10 17)).PointsAt
      [("a.rs", tenLines)]
        (.range "a.rs" tenLines.toList 10 17) tenLines 10 17 front rest width) ∧
      (inTenLines (.range "a.rs" tenLines.toList 10 17)).render [("a.rs", tenLines)] false =
        "error: unclosed\n  --> a.rs:9:3\n   |\n 9 | x y \x7b  \n   |   ^^^ here\n10 | \x7d" ∧
      (∃ n front rest, Text.OnLine tenLines.toList
        (min (99 : Int).toNat tenLines.toList.length) n front rest ∧
      (inTenLines (.point "a.rs" tenLines.toList 99)).Echoes [("a.rs", tenLines)]
          (.point "a.rs" tenLines.toList 99) tenLines n n front.length 1) ∧
      (inTenLines (.point "a.rs" tenLines.toList 99)).render [("a.rs", tenLines)] false =
        "error: unclosed\n  --> a.rs:11:1\n   |\n11 | \n   | ^ here" := by
  refine ⟨?_, by decide +kernel, ?_, by decide +kernel⟩
  · apply (carets_under_location _ _).2.1 _ _ _ _ rfl rfl (by decide) (by decide)
    exact Location.covers_range _ _ _ _
  · exact (carets_under_location _ _).2.2 _ _ _ rfl rfl

end Diagnostic
end ShadowImpl
