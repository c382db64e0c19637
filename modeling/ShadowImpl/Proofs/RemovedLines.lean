import ShadowImpl.Expansion.Basic
import ShadowImpl.Proofs.Unmarked

/-!
# What goes with an attribute

When an attribute is removed from a text, blanks around it go as well and nothing else does. If it
stands alone on its lines, these lines are gone, unless more than spaces and tabs stand behind it.
-/

namespace ShadowImpl.Text

variable {text before front marker behind rest : List Char} {start stop : Nat}

/-! ## Lines -/

/-- The line of the offset `start` begins at `i`. -/
structure BeginsLine (text : List Char) (start i : Nat) : Prop where
  le : i ≤ start
  edge : text.take i = [] ∨ (text.take i).getLast? = some '\n'
  line : '\n' ∉ (text.take start).drop i

theorem length_beforeLastLine_le (s : List Char) : (beforeLastLine s).length ≤ s.length := by
  have h := congrArg List.length (beforeLastLine_append_lastLine s)
  rw [List.length_append] at h
  omega

theorem drop_length_beforeLastLine (s : List Char) :
    s.drop (beforeLastLine s).length = lastLine s := by
  calc s.drop (beforeLastLine s).length
      = (beforeLastLine s ++ lastLine s).drop (beforeLastLine s).length := by
        rw [beforeLastLine_append_lastLine]
    _ = lastLine s := List.drop_left

/-- What stands in front of the last line is empty or ends in a line feed. -/
theorem beforeLastLine_cases (s : List Char) :
    beforeLastLine s = [] ∨ (beforeLastLine s).getLast? = some '\n' := by
  rw [beforeLastLine]
  cases h : s.reverse.dropWhile (· ≠ '\n') with
  | nil => exact .inl rfl
  | cons c r =>
    have hc : c = '\n' := by
      have hhead := List.head?_dropWhile_not (· ≠ '\n') s.reverse
      rw [h] at hhead
      simpa using hhead
    exact .inr (by simp [hc])

theorem take_length_beforeLastLine (text : List Char) (start : Nat) :
    text.take (beforeLastLine (text.take start)).length = beforeLastLine (text.take start) := by
  have hprefix : beforeLastLine (text.take start) <+: text :=
    (List.IsPrefix.trans ⟨_, beforeLastLine_append_lastLine (text.take start)⟩
      (List.take_prefix start text))
  exact (List.prefix_iff_eq_take.mp hprefix).symm

theorem beginsLine_beforeLastLine (h : start ≤ text.length) :
    BeginsLine text start (beforeLastLine (text.take start)).length := by
  refine ⟨?_, ?_, ?_⟩
  · have hle := length_beforeLastLine_le (text.take start)
    rwa [List.length_take, Nat.min_eq_left h] at hle
  · rw [take_length_beforeLastLine]
    exact beforeLastLine_cases _
  · rw [drop_length_beforeLastLine]
    exact not_mem_lastLine _

theorem isBlank_of_isTrailing {c : Char} (h : isTrailing c = true) :
    isBlank c = true ∧ c ≠ '\n' := by
  simp only [isTrailing, Bool.or_eq_true, beq_iff_eq] at h
  rcases h with rfl | rfl <;> decide

/-! ## Removing -/

/-- What goes with the characters from `start` up to `stop`, whose line begins at `line`: those from
`first` up to `last`. -/
structure GoneWith (text : List Char) (start stop line first last : Nat) : Prop where
  begins : BeginsLine text start line
  first_le : first ≤ start
  le_last : stop ≤ last
  last_le : last ≤ text.length
  before_blank : ∀ c ∈ (text.take start).drop first, isBlank c = true
  after_blank : ∀ c ∈ (text.take last).drop stop, isBlank c = true
  feeds : ((text.take start).drop first ++ (text.take last).drop stop).count '\n' ≤ 1
  /-- With a line feed goes all that stands in front on the line, so that no two
  lines become one. -/
  whole : '\n' ∈ (text.take start).drop first ++ (text.take last).drop stop → first = line
  /-- What stands in front on the line stays if it is not blank. -/
  kept : (∃ c ∈ (text.take start).drop line, isBlank c = false) → first = start

/-- What is cut off a text behind `stop`. -/
theorem cut_behind {w r : List Char} (hstop : stop ≤ text.length) (h : text.drop stop = w ++ r) :
    text.drop (stop + w.length) = r ∧ (text.take (stop + w.length)).drop stop = w ∧
      stop + w.length ≤ text.length := by
  refine ⟨?_, ?_, ?_⟩
  · rw [← List.drop_drop, h, List.drop_left]
  · rw [List.drop_take, Nat.add_sub_cancel_left, h, List.take_left]
  · have hlen := congrArg List.length h
    rw [List.length_drop, List.length_append] at hlen
    omega

/-- What goes with a line that is gone behind the attribute: blanks, and the line feed
if there is one. -/
theorem endsLine_cases {after : List Char} (h : endsLine after = true) :
    ∃ feed, after = feed ++ after.drop 1 ∧ (feed = [] ∨ feed = ['\n']) := by
  cases after with
  | nil => exact ⟨[], rfl, .inl rfl⟩
  | cons c r =>
    obtain rfl : c = '\n' := by simpa [endsLine] using h
    exact ⟨['\n'], rfl, .inr rfl⟩

/-- The whole line goes: what stands in front on it is blank, and a line feed may stand behind. -/
theorem goneWith_line {feed : List Char} (hstart : start ≤ text.length) (hstop : stop ≤ text.length)
    (hsplit : text.drop stop = (behind ++ feed) ++ rest)
    (hbehind : ∀ c ∈ behind, isBlank c = true ∧ c ≠ '\n') (hfeed : feed = [] ∨ feed = ['\n'])
    (hfront : ∀ c ∈ lastLine (text.take start), isBlank c = true) :
    GoneWith text start stop (beforeLastLine (text.take start)).length
      (beforeLastLine (text.take start)).length (stop + (behind ++ feed).length) := by
  have hbegins := beginsLine_beforeLastLine hstart
  have hnofeed : '\n' ∉ behind := fun h => (hbehind '\n' h).2 rfl
  obtain ⟨-, htake, hle⟩ := cut_behind hstop hsplit
  refine ⟨hbegins, hbegins.le, Nat.le_add_right _ _, hle, ?_, ?_, ?_, fun _ => rfl, ?_⟩
  · rwa [drop_length_beforeLastLine]
  · rw [htake]
    intro c hc
    rcases List.mem_append.mp hc with hc | hc
    · exact (hbehind c hc).1
    · rcases hfeed with rfl | rfl
      · simp at hc
      · rw [List.mem_singleton.mp hc]
        rfl
  · -- neither the part in front nor the blanks behind hold a line feed
    rw [drop_length_beforeLastLine, htake, List.count_append, List.count_append,
      List.count_eq_zero.mpr (not_mem_lastLine _), List.count_eq_zero.mpr hnofeed]
    rcases hfeed with rfl | rfl <;> decide
  · rw [drop_length_beforeLastLine]
    rintro ⟨c, hc, hnot⟩
    rw [hfront c hc] at hnot
    contradiction

/-- What stands in front on the line stays, and only blanks behind go. -/
theorem goneWith_behind (hstart : start ≤ text.length) (hstop : stop ≤ text.length)
    (hsplit : text.drop stop = behind ++ rest)
    (hbehind : ∀ c ∈ behind, isBlank c = true ∧ c ≠ '\n') :
    GoneWith text start stop (beforeLastLine (text.take start)).length start
      (stop + behind.length) := by
  have hnofeed : '\n' ∉ behind := fun h => (hbehind '\n' h).2 rfl
  obtain ⟨-, htake, hle⟩ := cut_behind hstop hsplit
  have hfront : (text.take start).drop start = [] :=
    List.drop_eq_nil_of_le (List.length_take_le start text)
  refine ⟨beginsLine_beforeLastLine hstart, Nat.le_refl _, Nat.le_add_right _ _, hle,
    ?_, ?_, ?_, ?_, fun _ => rfl⟩
  · simp [hfront]
  · rw [htake]
    exact fun c hc => (hbehind c hc).1
  · rw [hfront, htake, List.nil_append, List.count_eq_zero.mpr hnofeed]
    exact Nat.zero_le 1
  · rw [hfront, htake, List.nil_append]
    exact fun h => absurd h hnofeed

/-- Only blanks go with an attribute, and among them a line feed only if the whole line goes. -/
theorem removeAttribute_gone (hstart : start ≤ text.length) (hstop : stop ≤ text.length) :
    ∃ line first last, removeAttribute text start stop = text.take first ++ text.drop last ∧
      GoneWith text start stop line first last := by
  have hsplit : text.drop stop =
      (text.drop stop).takeWhile isTrailing ++ (text.drop stop).dropWhile isTrailing :=
    List.takeWhile_append_dropWhile.symm
  have hbehind : ∀ c ∈ (text.drop stop).takeWhile isTrailing, isBlank c = true ∧ c ≠ '\n' :=
    fun c hc => isBlank_of_isTrailing (List.mem_takeWhile_imp hc)
  generalize (text.drop stop).takeWhile isTrailing = behind at hsplit hbehind
  rw [removeAttribute]
  split
  · rename_i hline
    obtain ⟨hblank, hend⟩ := Bool.and_eq_true_iff.mp hline
    obtain ⟨feed, hafter, hfeed⟩ := endsLine_cases hend
    rw [hafter, ← List.append_assoc] at hsplit
    obtain ⟨hdrop, -, -⟩ := cut_behind hstop hsplit
    exact ⟨_, _, _, by rw [hdrop, take_length_beforeLastLine],
      goneWith_line hstart hstop hsplit hbehind hfeed (List.all_eq_true.mp hblank)⟩
  · obtain ⟨hdrop, -, -⟩ := cut_behind hstop hsplit
    exact ⟨_, start, _, by rw [hdrop], goneWith_behind hstart hstop hsplit hbehind⟩


/-- Removing the characters between two offsets keeps everything else: besides them only blanks go,
right in front and right behind. At most one of these is a line feed, and then all that stands in
front on the line goes as well; what is not blank there stays. -/
theorem removeBetween_keeps (text : List Char) (start stop : Nat) (h : start ≤ stop)
    (hstop : stop ≤ text.length) :
    ∃ line first last, removeBetween text start stop = text.take first ++ text.drop last ∧
      GoneWith text start stop line first last := by
  rw [removeBetween_eq text (Int.natCast_nonneg start) (Int.natCast_nonneg stop)]
  exact removeAttribute_gone (h.trans hstop) hstop

/-- An attribute with a tab behind it, below a line that ends in a blank. -/
theorem removeBetween_keeps_above :
    removeBetween "x \n #[m]\t\ny".toList 4 8 = "x \ny".toList ∧
      ∃ line first last, removeBetween "x \n #[m]\t\ny".toList 4 8 =
          "x \n #[m]\t\ny".toList.take first ++ "x \n #[m]\t\ny".toList.drop last ∧
        GoneWith "x \n #[m]\t\ny".toList 4 8 line first last :=
  ⟨by decide, removeBetween_keeps "x \n #[m]\t\ny".toList 4 8 (by decide) (by decide)⟩

/-! ## Attributes alone on their lines -/

/-- Whether blanks stand on one line. -/
def BlankOnLine (s : List Char) : Prop :=
  ∀ c ∈ s, isBlank c = true ∧ c ≠ '\n'

instance (s : List Char) : Decidable (BlankOnLine s) :=
  decidable_of_iff (s.all (fun c => isBlank c && c != '\n') = true) (by simp [BlankOnLine])

/-- What stands between `front` and `behind` is alone on its lines, with `before` in front of these
lines and `rest` behind them, which starts with the line feed that ends them. -/
structure AloneOnLines (before front behind rest : List Char) : Prop where
  starts : before = [] ∨ before.getLast? = some '\n'
  front : BlankOnLine front
  behind : BlankOnLine behind
  ends : rest = [] ∨ rest.head? = some '\n'

theorem lastLine_append (h : '\n' ∉ front) (hbefore : before = [] ∨ before.getLast? = some '\n') :
    lastLine (before ++ front) = front ∧ beforeLastLine (before ++ front) = before := by
  have hfront : ∀ c ∈ front.reverse, decide (c ≠ '\n') = true := by
    intro c hc
    simpa using fun heq : c = '\n' => h (heq ▸ List.mem_reverse.mp hc)
  have hbefore' : before.reverse.takeWhile (· ≠ '\n') = [] ∧
      before.reverse.dropWhile (· ≠ '\n') = before.reverse := by
    rcases hbefore with rfl | hlast
    · exact ⟨rfl, rfl⟩
    · obtain ⟨before, rfl⟩ := List.getLast?_eq_some_iff.mp hlast
      simp
  rw [lastLine, beforeLastLine, List.reverse_append, List.takeWhile_append_of_pos hfront,
    List.dropWhile_append_of_pos hfront, hbefore'.1, hbefore'.2]
  simp

theorem endsLine_iff : endsLine rest = true ↔ rest = [] ∨ rest.head? = some '\n' := by
  cases rest <;> simp [endsLine]

/-- Behind an attribute that is alone on its lines, all blanks are skipped if they are spaces and
tabs; others stay, with what follows. -/
theorem AloneOnLines.dropWhile_eq (h : AloneOnLines before front behind rest) :
    (behind ++ rest).dropWhile isTrailing = behind.dropWhile isTrailing ++ rest := by
  rw [List.dropWhile_append]
  split
  · rename_i hnil
    rw [List.isEmpty_iff.mp hnil]
    rcases h.ends with rfl | hhead
    · rfl
    · obtain ⟨r, rfl⟩ := List.head?_eq_some_iff.mp hhead
      rfl
  · rfl

theorem AloneOnLines.removeBetween_marker (h : AloneOnLines before front behind rest) :
    removeBetween (before ++ (front ++ (marker ++ (behind ++ rest)))) (before ++ front).length
        (before ++ front ++ marker).length =
      if behind.all isTrailing then before ++ rest.drop 1
      else before ++ (front ++ behind.dropWhile isTrailing ++ rest) := by
  have htake : (before ++ (front ++ (marker ++ (behind ++ rest)))).take (before ++ front).length =
      before ++ front := by
    rw [← List.append_assoc, List.take_left]
  have hdrop : (before ++ (front ++ (marker ++ (behind ++ rest)))).drop
      (before ++ front ++ marker).length = behind ++ rest := by
    rw [← List.append_assoc, ← List.append_assoc, List.drop_left]
  obtain ⟨hlast, hbefore⟩ := lastLine_append (fun hmem => (h.front '\n' hmem).2 rfl) h.starts
  have hblank : allBlank front = true := List.all_eq_true.mpr fun c hc => (h.front c hc).1
  rw [removeBetween_eq _ (Int.natCast_nonneg _) (Int.natCast_nonneg _), Int.toNat_natCast,
    Int.toNat_natCast, removeAttribute, htake, hdrop, hlast, hbefore, hblank, h.dropWhile_eq]
  by_cases hall : behind.all isTrailing = true
  · have hnil : behind.dropWhile isTrailing = [] := by
      simpa [List.dropWhile_eq_nil_iff] using hall
    rw [hnil, List.nil_append, endsLine_iff.mpr h.ends, if_pos hall]
    rfl
  · obtain ⟨c, r, hc⟩ : ∃ c r, behind.dropWhile isTrailing = c :: r := by
      refine List.exists_cons_of_ne_nil fun hnil => hall ?_
      simpa [List.dropWhile_eq_nil_iff] using hnil
    have hfeed : c ≠ '\n' :=
      (h.behind c ((List.dropWhile_suffix isTrailing).subset (hc ▸ List.mem_cons_self))).2
    have hend : endsLine (c :: (r ++ rest)) = false := by simpa [endsLine] using hfeed
    rw [hc, List.cons_append, hend, if_neg hall]
    simp

/-- An attribute that is alone on its lines goes with them exactly if nothing but spaces and tabs
stands behind it. Otherwise a line of blanks is left, which ends as the last of the lines did. -/
theorem removeBetween_whole_lines (h : AloneOnLines before front behind rest) (marker : List Char) :
    let left := removeBetween (before ++ (front ++ (marker ++ (behind ++ rest))))
      (before ++ front).length (before ++ front ++ marker).length
    (left = before ++ rest.drop 1 ↔ ∀ c ∈ behind, isTrailing c = true) ∧
      ((∃ c ∈ behind, isTrailing c = false) →
        ∃ line, line ≠ [] ∧ BlankOnLine line ∧ left = before ++ (line ++ rest)) := by
  intro left
  have hleft : left = if behind.all isTrailing then before ++ rest.drop 1
      else before ++ (front ++ behind.dropWhile isTrailing ++ rest) := h.removeBetween_marker
  by_cases hall : behind.all isTrailing = true
  · have htrailing : ∀ c ∈ behind, isTrailing c = true := List.all_eq_true.mp hall
    rw [hleft, if_pos hall]
    refine ⟨⟨fun _ => htrailing, fun _ => rfl⟩, ?_⟩
    rintro ⟨c, hc, hnot⟩
    rw [htrailing c hc] at hnot
    contradiction
  · have hline : front ++ behind.dropWhile isTrailing ≠ [] := by
      intro hnil
      exact hall (by simpa [List.dropWhile_eq_nil_iff] using (List.append_eq_nil_iff.mp hnil).2)
    have hblank : BlankOnLine (front ++ behind.dropWhile isTrailing) := by
      intro c hc
      rcases List.mem_append.mp hc with hc | hc
      · exact h.front c hc
      · exact h.behind c ((List.dropWhile_suffix isTrailing).subset hc)
    rw [hleft, if_neg hall]
    refine ⟨⟨fun heq => ?_, fun htrailing => absurd (List.all_eq_true.mpr htrailing) hall⟩,
      fun _ => ⟨_, hline, hblank, rfl⟩⟩
    -- With the line left in it the text is longer.
    have hlen := congrArg List.length (List.append_cancel_left heq)
    have hpos := List.length_pos_iff.mpr hline
    rw [List.length_append, List.length_drop] at hlen
    omega

/-- An indented attribute over two lines, with a tab behind it. -/
theorem removeBetween_whole_lines_tab :
    AloneOnLines "x\n".toList "  ".toList "\t".toList "\ny".toList ∧
      (removeBetween "x\n  #[m\n]\t\ny".toList 4 9 = "x\ny".toList ↔
        ∀ c ∈ "\t".toList, isTrailing c = true) := by
  have h : AloneOnLines "x\n".toList "  ".toList "\t".toList "\ny".toList :=
    ⟨.inr rfl, by decide, by decide, .inr rfl⟩
  exact ⟨h, (removeBetween_whole_lines h "#[m\n]".toList).1⟩

/-- In a text whose lines end in a carriage return and a line feed, the line of the
marker is left. -/
theorem line_left_of_carriage_return :
    AloneOnLines [] [] ['\r'] "\nimpl X \x7b\x7d".toList ∧
      removeBetween "#[shadow_impl]\r\nimpl X \x7b\x7d".toList 0 14 ≠ "impl X \x7b\x7d".toList ∧
      (Expansion.ofSource "#[shadow_impl]\r\nimpl X \x7b\x7d" "<input>").result.toOption.map
        Expansion.given = some "\r\nimpl X \x7b\x7d" :=
  ⟨⟨.inl rfl, by decide, by decide, .inr rfl⟩, by decide, by decide +kernel⟩

end ShadowImpl.Text
