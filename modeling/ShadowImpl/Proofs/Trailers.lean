import Mathlib.Data.List.Sublists
import ShadowImpl.Proofs.Insertions
import ShadowImpl.Proofs.RoundTrip

/-!
# A comment behind a list of arguments

The predicates of a marker stand between brackets, and more of its arguments may stand behind
them. What closes something there closes nothing in front of the bracket, or the bracket would
not have been found. So the predicates are the same with a comment behind them that has the marks
of all that follows.
-/

namespace ShadowImpl

open Lexeme Recogniser

variable {e : Expectation} {r u v x y z : List Char} {m : Mark} {k : Nat} {t : Token}
    {ts : List Token}

/-! ## The comment -/

/-- All marks. -/
def Mark.all : List Mark :=
  [comment, raw, rawTwo]

theorem Mark.mem_all (m : Mark) : m ∈ all := by
  cases m <;> decide

/-- A comment on the rest of a line with the given marks in it. A character that no lexeme starts
with stands behind each. -/
def remark (ms : List Mark) : List Char :=
  ' ' :: '/' :: '/' :: (ms.flatMap fun m => m.text ++ ['\\']) ++ ['\n']

/-- The comment with the marks of a text. -/
def trailer (u : List Char) : List Char :=
  remark (Mark.all.filter fun m => (through m.text u).isSome)

theorem remark_infix : ∀ ms ∈ Mark.all.sublists, ∀ m ∈ Mark.all,
    (m.text <:+: remark ms ↔ ∃ m' ∈ ms, m.text <:+: m'.text) := by
  decide

/-- A text that starts with a character that no lexeme starts with, or does so behind a `#`. -/
def startsAstray (x : List Char) : Bool :=
  x.head? == some '\\' || x.take 2 == ['#', '\\']

theorem remark_astray : ∀ ms ∈ Mark.all.sublists, ∀ m ∈ Mark.all,
    (through m.text (remark ms)).all (fun k => startsAstray ((remark ms).drop k)) = true := by
  decide

theorem remark_comment : ∀ ms ∈ Mark.all.sublists,
    '\n' ∉ ms.flatMap (fun m => m.text ++ ['\\']) ∧
      (ms.flatMap fun m => m.text ++ ['\\']).head? ∉ [some '/', some '!'] := by
  decide

theorem mem_sublists (u : List Char) :
    (Mark.all.filter fun m => (through m.text u).isSome) ∈ Mark.all.sublists :=
  List.mem_sublists.mpr List.filter_sublist

theorem isSome_through : (through m.text u).isSome = true ↔ m.text <:+: u := by
  rw [Option.isSome_iff_ne_none, ne_eq, through_eq_none_iff, not_not]

/-- The comment has the marks of the text. -/
theorem infix_trailer : m.text <:+: trailer u ↔ m.text <:+: u := by
  rw [trailer, remark_infix _ (mem_sublists u) m m.mem_all]
  constructor
  · rintro ⟨m', hm', h⟩
    exact h.trans (isSome_through.mp (List.mem_filter.mp hm').2)
  · intro h
    exact ⟨m, List.mem_filter.mpr ⟨m.mem_all, isSome_through.mpr h⟩, List.infix_refl _⟩

theorem first_slashes_line {w : List Char} (hline : '\n' ∉ w)
    (hhead : w.head? ∉ [some '/', some '!']) :
    first e ('/' :: '/' :: w ++ '\n' :: z) = some (.comment, ('/' :: '/' :: w).length) := by
  obtain ⟨d, r, hd, hslash, hbang⟩ : ∃ d r, w ++ '\n' :: z = d :: r ∧ d ≠ '/' ∧ d ≠ '!' := by
    cases w with
    | nil => exact ⟨'\n', z, rfl, by decide, by decide⟩
    | cons d w => exact ⟨d, w ++ '\n' :: z, rfl, by simp_all, by simp_all⟩
  refine first_eq_some_iff.mpr ⟨by decide, rfl, ?_, fun l hl _ => ?_⟩
  · have hrun : line (w ++ '\n' :: z) = w.length := by
      refine run_eq_of_append (fun c hc => ?_) (by simp)
      simpa using fun h : c = '\n' => hline (h ▸ hc)
    simp [recognise, Recogniser.comment, hrun]
    omega
  · rw [List.cons_append, List.cons_append, hd]
    simp only [before_comment, List.mem_cons, List.not_mem_nil, or_false] at hl
    rcases hl with rfl | rfl | rfl <;> simp [recognise, Terminal.recognise, docComment,
      innerDoc, rawString, hslash, hbang]

/-- The comment is passed over. -/
theorem gap_trailer (u : List Char) : Gap e (trailer u) := by
  obtain ⟨hline, hhead⟩ := remark_comment _ (mem_sublists u)
  refine .layout rfl (.line (fun z => first_slashes_line hline hhead) (.layout rfl .nil))

/-! ## What is left open -/

/-- A mark that is not in `r` comes first in what stands behind a space. -/
theorem through_behind (hr : ¬ m.text <:+: r) (hu : u.head? = some ' ')
    (h : through m.text u = some k) : through m.text (r ++ u) = some (r.length + k) := by
  induction r with
  | nil => simpa using h
  | cons c r ih =>
    have hnot : m.text.isPrefixOf (c :: (r ++ u)) = false := by
      rw [← List.cons_append, Bool.eq_false_iff, Ne, List.isPrefixOf_iff_prefix]
      intro hp
      rcases List.prefix_or_prefix_of_prefix hp (List.prefix_append (c :: r) u) with h | ⟨w, hw⟩
      · exact hr h.isInfix
      · cases w with
        | nil => exact hr ⟨[], [], by simpa using hw.symm⟩
        | cons d w =>
          -- There is no space in a mark.
          rw [← hw, List.prefix_append_right_inj] at hp
          obtain ⟨u, rfl⟩ := List.head?_eq_some_iff.mp hu
          obtain ⟨rfl, -⟩ := List.cons_prefix_cons.mp hp
          have hspace : ' ' ∉ m.text := by cases m <;> decide
          exact hspace (by simp [← hw])
    rw [List.cons_append, through, hnot, if_neg (by decide),
      ih fun h => hr (h.trans (List.suffix_cons c r).isInfix)]
    simp
    omega

theorem not_tiled_of_startsAstray (h : startsAstray x = true) : ¬ Tiled x := by
  have hstuck : ∀ r, ¬ Tiled ('\\' :: r) := by
    intro r ht
    obtain ⟨l, k, hf⟩ := ht.exists_first (by simp)
    obtain ⟨hl, -⟩ := starts_of_first hf
    have hnone : order.filter (·.starts '\\') = [] := by decide
    simp [hnone] at hl
  intro ht
  rw [startsAstray, Bool.or_eq_true, beq_iff_eq, beq_iff_eq] at h
  rcases h with h | h
  · obtain ⟨r, rfl⟩ := List.head?_eq_some_iff.mp h
    exact hstuck r ht
  · obtain ⟨r, rfl⟩ :
      ∃ r, x = '#' :: '\\' :: r := ⟨x.drop 2, by rw [← List.take_append_drop 2 x, h]; rfl⟩
    obtain ⟨l, k, hf⟩ := ht.exists_first (by simp)
    have hhash : Terminal.hash.recognise ('#' :: '\\' :: r) = some 1 := exactly_append ['#'] _
    obtain rfl := symbol_eq hf hhash (by decide) (by decide)
    exact hstuck r (ht.drop hf)

/-- What a text leaves open is not closed by the comment behind it. -/
theorem Tiled.not_infix_of_awaited (h : Tiled (x ++ trailer u)) (hm : m.Awaited x) :
    ¬ m.text <:+: trailer u := by
  intro hclosed
  obtain ⟨o, ho, r, rfl, hr⟩ := hm
  obtain ⟨k, hk⟩ : ∃ k, through m.text (trailer u) = some k := by
    cases hk : through m.text (trailer u) with
    | none => exact absurd hclosed (through_eq_none_iff.mp hk)
    | some k => exact ⟨k, rfl⟩
  have hastray := remark_astray _ (mem_sublists u) m m.mem_all
  rw [← trailer, hk, Option.all_some] at hastray
  rw [List.append_assoc] at h
  have hne : o ++ (r ++ trailer u) ≠ [] := by simp [trailer, remark]
  obtain ⟨l, j, hf⟩ := h.exists_first hne
  have hj := eq_of_closed ho (.inr (by decide)) (through_behind hr rfl hk) hf
  have hrest := h.drop hf
  rw [hj, show r.length + k + o.length = o.length + (r.length + k) by omega,
    List.drop_length_add_append, List.drop_length_add_append] at hrest
  exact not_tiled_of_startsAstray hastray hrest

/-! ## Between brackets -/

/-- The text `v` is found in front of `u` where anything is expected: as tokens, and as the gap in
front of the token that `u` starts with. -/
def Enclosed (v u : List Char) : Prop :=
  ∃ ts c y, Scanned (v ++ u) (ts ++ [c]) y ∧ v = Token.spelled ts ++ c.gap

theorem Scanned.extends (h : Scanned x ts y) : Extends ts y := by
  induction h with
  | nil x => exact .nil x
  | @cons x y z t ts ht hts ih =>
    have hfirst := Extends.token ht
    rw [hts.spelled] at hfirst
    exact hfirst.append ih

/-- In front of something on the same line no line is left open. -/
theorem Scanned.endsLines (h : Scanned x ts y) (hy : StaysOnLine y) : EndsLines ts := by
  intro t ht hslashes
  obtain ⟨ts, rfl⟩ := List.getLast?_eq_some_iff.mp ht
  obtain ⟨z, -, hlast⟩ := h.of_append
  cases hlast with
  | cons hnext hnil =>
    cases hnil
    obtain ⟨-, k, -, hk⟩ := Next.of_eq_token hnext
    obtain ⟨c, r, rfl, hc⟩ := hy
    exact absurd (endsLine_of_first hk hslashes) (by simpa [Text.endsLine] using hc)

namespace Enclosed

theorem exists_token (h : Enclosed v u) :
    ∃ ts c y, v = Token.spelled ts ++ c.gap ∧ u = c.text ++ y ∧ Scanned (v ++ u) ts (c.gap ++ u) ∧
    Next.of Expected.anything (c.gap ++ u) = .token c y := by
  obtain ⟨ts, c, y, hscan, rfl⟩ := h
  obtain ⟨z, hts, hc⟩ := hscan.of_append
  cases hc with
  | cons hnext hnil =>
    cases hnil
    obtain rfl : z = c.gap ++ u := by
      have := hts.spelled
      rw [List.append_assoc] at this
      exact (List.append_cancel_left this).symm
    have hu := (Next.of_eq_token hnext).1
    rw [List.append_assoc, List.append_cancel_left_eq] at hu
    exact ⟨ts, c, y, rfl, hu, hts, hnext⟩

theorem tiled (h : Enclosed v u) : Tiled v := by
  obtain ⟨ts, c, y, rfl, rfl, hts, hnext⟩ := h.exists_token
  exact hts.extends c.gap _ rfl (tiled_gap hnext) (.of_token hnext y)

/-- The text is covered by lexemes together with the comment that has the marks behind it. -/
theorem tiled_trailer (h : Enclosed v u) : Tiled (v ++ trailer u) := by
  obtain ⟨ts, c, y, rfl, hu, hts, hnext⟩ := h.exists_token
  have hg := gap_of_token hnext
  -- A letter behind the comment shows where the comment ends.
  have hline : c.gap = [] → EndsLines ts := by
    intro hgap
    refine hts.endsLines ?_
    rw [hgap, List.nil_append, hu]
    exact .of_token hnext y
  have hmarks : ∀ m : Mark, m.text <:+: trailer u ++ ['x'] → m.text <:+: u := by
    intro m hm
    have hletter : ∀ m ∈ Mark.all, ¬ m.text <:+: ['x'] := by decide
    exact infix_trailer.mp ((Mark.infix_append (by simp) hm).resolve_right (hletter m m.mem_all))
  have hagain := hts.before hg ⟨rfl, hline, fun _ _ _ _ m _ => hmarks m⟩
  have hletter : Next.of Expected.anything (c.gap ++ (trailer u ++ ['x'])) =
      .token ⟨.ident, c.gap ++ trailer u, ['x']⟩ [] := by
    have hx : Next.of Expected.anything ['x'] = .token ⟨.ident, [], ['x']⟩ [] := rfl
    rw [← List.append_assoc, (hg.append (gap_trailer u)).of_append, hx, Next.prepend,
      List.append_nil]
  have := hagain.extends (c.gap ++ trailer u) ['x'] (by simp) (tiled_gap hletter)
    ⟨'x', [], rfl, by decide⟩
  simpa using this

end Enclosed

/-! ## The same tokens with the comment behind -/

/-- Layout in front of lexemes may be missing. -/
theorem Tiled.of_layout {c : Char} (h : Tiled (c :: x)) (hc : isLayout c = true) : Tiled x := by
  have hrest := h.drop (Next.first_of_layout hc x)
  rw [Nat.add_comm, List.drop_succ_cons] at hrest
  cases x with
  | nil => exact .nil
  | cons d x =>
    by_cases hd : isLayout d = true
    · refine .step (Next.first_of_layout hd x) (fun hs => ?_) ?_
      · obtain ⟨rfl, -⟩ := List.cons_prefix_cons.mp hs
        simp [isLayout] at hd
      · simpa [run, hd, Nat.add_comm] using hrest
    · simpa [run, hd] using hrest

/-- So may a gap. -/
theorem Tiled.of_gap_append {g : List Char} (hg : Gap e g) (h : Tiled (g ++ z)) : Tiled z := by
  have hcomment : ∀ {c w : List Char}, first e (c ++ w) = some (.comment, c.length) →
      Tiled (c ++ w) → Tiled w := by
    intro c w hc h
    have hne : c ++ w ≠ [] := by
      intro hnil
      simp [hnil] at hc
    obtain ⟨l, k, hf⟩ := h.exists_first hne
    obtain rfl := eq_of_skipped hf hc rfl
    simpa using h.drop hf
  induction hg with
  | nil => exact h
  | layout hc _ ih => exact ih (h.of_layout hc)
  | line hc _ ih =>
    rw [List.append_assoc, List.cons_append] at h
    exact ih (hcomment (hc _) h)
  | block hc _ _ ih =>
    rw [List.append_assoc] at h
    exact ih (hcomment (hc _) h)

/-- Inside of a lexeme nothing is opened. -/
theorem Off.not_opens (h : Off e x) (he : m = .comment ∨ .rawString ∈ e) :
    ∀ o ∈ m.openings, ¬ o <+: x := by
  rintro o ho ⟨r, rfl⟩
  obtain ⟨c, o', rfl, hc⟩ : ∃ c o', o = c :: o' ∧ c ∈ ['/', 'r', 'b'] := by
    revert ho
    cases m <;> simp [Mark.openings] <;> rintro (rfl | rfl) <;> simp
  rw [List.cons_append] at h
  generalize hy : c :: (o' ++ r) = y at h
  cases h with
  | stuck hd =>
    obtain ⟨rfl, -⟩ := List.cons.inj hy
    revert hc hd
    simp only [List.mem_cons, List.not_mem_nil, or_false]
    rintro (rfl | rfl | rfl) <;> decide
  | symbol hd =>
    obtain ⟨rfl, -⟩ := List.cons.inj hy
    revert hc hd
    simp only [List.mem_cons, List.not_mem_nil, or_false]
    rintro (rfl | rfl | rfl) <;> decide
  | word hw hall _ _ hraw =>
    obtain rfl := he.resolve_right hraw
    obtain ⟨d, w, rfl⟩ := List.exists_cons_of_ne_nil hw
    obtain ⟨rfl, -⟩ := List.cons.inj hy
    obtain ⟨rfl, -⟩ : c = '/' ∧ o' = ['*'] := by simpa [Mark.openings] using ho
    exact absurd (hall '/' (by simp)) (by decide)

/-- A token inside of a lexeme has no gap. -/
theorem Off.gap_eq_nil (h : Off e (x ++ z)) (hx : Next.of e x = .token t y) : t.gap = [] := by
  obtain ⟨c, r, heq, hc, hslash⟩ := h.head
  cases hgap : t.gap with
  | nil => rfl
  | cons d g =>
    rw [(Next.of_eq_token hx).1, hgap] at heq
    obtain ⟨rfl, -⟩ : d = c ∧ _ := by simpa using heq
    have := (gap_of_token hx).head_cases d (by simp [hgap])
    simp [hc, hslash] at this

/-- What is left open in front of the comment is not closed by it. -/
theorem Aligned.not_infix_trailer (h : Aligned e (x ++ trailer u)) (hx : Next.of e x = .token t y)
    (he : m = .comment ∨ .rawString ∈ e)
    (hm : m.Awaited (t.text ++ y)) : ¬ m.text <:+: trailer u := by
  have hoff : ∀ z, ¬ Off e (x ++ z) := by
    intro z hoff
    obtain ⟨o, ho, r, heq, -⟩ := hm
    refine hoff.not_opens he o ho ?_
    rw [(Next.of_eq_token hx).1, hoff.gap_eq_nil hx, List.nil_append, heq, List.append_assoc]
    exact List.prefix_append o _
  have htiled : Tiled (x ++ trailer u) := h.resolve_right (hoff _)
  rw [(Next.of_eq_token hx).1, List.append_assoc, List.append_assoc,
    ← List.append_assoc t.text] at htiled
  exact (htiled.of_gap_append (gap_of_token hx)).not_infix_of_awaited hm

/-- The last token leaves no line open. -/
theorem Aligned.not_slashes (h : Aligned e x) (hx : Next.of e x = .token t []) :
    ¬ ['/', '/'] <+: t.text := by
  rintro ⟨r, hr⟩
  rcases h with h | h
  · have htiled := h.of_gap hx
    obtain ⟨-, v, -, hv⟩ := Next.of_eq_token hx
    rw [List.append_nil, ← hr] at htiled
    rw [List.append_nil, ← hr] at hv
    cases htiled with
    | step _ hline =>
      have hmem : '\n' ∈ r := by simpa using hline (List.prefix_append _ r)
      have hlen : r.length + 2 = 2 + line r := by simpa using eq_of_comment rfl hv
      have hall := List.takeWhile_eq_self_iff.mp
        (List.IsPrefix.eq_of_length (List.takeWhile_prefix _)
        (show (r.takeWhile (· ≠ '\n')).length = r.length by rw [line, run] at hlen; omega))
      simpa using hall _ hmem
  · have hgap := Off.gap_eq_nil (z := []) (by simpa using h) hx
    obtain ⟨c, z, hc, -, hslash⟩ := h.head
    rw [(Next.of_eq_token hx).1, hgap, ← hr] at hc
    exact hslash (List.cons.inj hc).1.symm

theorem Next.lexes_of_ended {g : List Char} (h : Next.of e x = .ended g) : Lexes x := by
  have hf := Next.found e x
  rw [h] at hf
  generalize Next.ended g = n at hf
  cases hf with
  | ended => exact .inl rfl
  | unknown hs hn => simp [Next.of_unknown hs hn] at h
  | token hv => exact .inr ⟨e, _, _, hv⟩
  | skip hl => exact .inr ⟨e, _, _, hl⟩

/-- Where only a gap is left, only a gap is left with the comment behind it. -/
theorem Tiled.ended_trailer {g : List Char} (h : Tiled x) (hx : Next.of e x = .ended g) :
    (Next.of e (x ++ trailer u)).kind = .eof := by
  -- The comment alone is a gap.
  have hkind : (Next.of e (trailer u)).kind = .eof := by
    have := (gap_trailer (e := e) u).of_append []
    rw [List.append_nil, Next.of_nil] at this
    rw [this]
    rfl
  induction h generalizing g with
  | nil => exact hkind
  | @step x l k hf hline rest ih =>
    -- Layout at the end goes over into the comment. Anything else is skipped as it was.
    by_cases hlayout : ∃ a ∈ x, isLayout a = false
    · cases hfe : first e x with
      | none =>
        obtain ⟨a, ha, -⟩ := hlayout
        simp [Next.of_unknown (List.ne_nil_of_mem ha) hfe] at hx
      | some p =>
        obtain ⟨l', j⟩ := p
        cases hskip : l'.skipped with
        | false =>
          obtain ⟨v, rfl⟩ : ∃ v, l' = .terminal v := by
            cases l' <;> simp_all [skipped]
          simp [Next.of_token hfe] at hx
        | true =>
          obtain rfl := eq_of_skipped hf hfe hskip
          rw [Next.of_skip hfe hskip] at hx
          obtain ⟨g', hg'⟩ : ∃ g', Next.of e (x.drop k) = .ended g' := by
            cases hn : Next.of e (x.drop k) <;> simp_all [Next.prepend]
          have hclear : Clear e x (trailer u) := by
            refine clear_of_parts hfe (Next.lexes_of_ended hg') ?_ hlayout
              (fun hs => .inl (hline hs)) fun m _ hs => absurd hs
              (Next.not_awaited_of_skipped hfe hskip)
            rintro c hc
            obtain rfl : ' ' = c := by simpa [trailer, remark] using hc
            exact ⟨rfl, by simp, by simp⟩
          rw [Next.of_skip (first_append_of_clear hclear hfe) hskip, Next.kind_prepend,
            List.drop_append_of_le_length (first_bounds hfe).2]
          exact ih hg'
    · have hall : ∀ c ∈ x, isLayout c = true := by simpa using hlayout
      rw [Next.of_layout_append hall, Next.kind_prepend, hkind]

theorem Aligned.ended_trailer {g : List Char} (h : Aligned e x) (hx : Next.of e x = .ended g) :
    (Next.of e (x ++ trailer u)).kind = .eof := by
  rcases h with h | h
  · exact h.ended_trailer hx
  · -- inside of a lexeme there is more than a gap
    obtain ⟨c, r, rfl, hc, hslash⟩ := h.head
    have hf := Next.found e (c :: r)
    rw [hx] at hf
    generalize hn : Next.ended g = n at hf
    cases hf with
    | unknown | token => simp at hn
    | skip hl hskip => simp [not_skipped_of_head hc hslash hl] at hskip

/-! ## The same reading with the comment behind -/

variable {s s' s₁ : Scan}

/-- A scan of a text, and one that has taken the same tokens of the text with the
comment behind it. -/
structure Trailed (u : List Char) (s s' : Scan) : Prop where
  taken : s'.taken = s.taken
  expected : s'.expected = s.expected
  rest : s'.rest = s.rest ++ trailer u
  alone : Aligned s.expected s.rest
  before : Aligned s.expected (s.rest ++ trailer u)

theorem Trailed.next_token (h : Trailed u s s') (hnext : s.next = .token t r) (hr : Lexes r) :
    s'.next = .token t (r ++ trailer u) := by
  rw [Scan.next, h.expected, h.rest]
  refine Next.of_append hnext hr ?_ ?_ ?_
  · rintro c hc
    obtain rfl : ' ' = c := by simpa [trailer, remark] using hc
    exact ⟨rfl, by simp, by simp⟩
  · rintro rfl hslashes
    exact absurd hslashes (h.alone.not_slashes hnext)
  · exact fun m he hm => h.before.not_infix_trailer hnext he hm

theorem Next.exists_ended (h : (Next.of e x).kind = .eof) : ∃ g, Next.of e x = .ended g := by
  cases hn : Next.of e x with
  | ended g => exact ⟨g, rfl⟩
  | unknown => simp [hn, Next.kind] at h
  | token t r =>
    have := Next.kind_mem_of_token hn
    rw [show t.kind = .eof by simpa [hn, Next.kind] using h] at this
    exact absurd this (by decide)

/-- From a scan on to the end of the text there are lexemes. -/
theorem Scan.Reaches.lexes_of_eof (h : s.Reaches s₁) (hend : s₁.next.kind = .eof) :
    Lexes s.rest := by
  cases h with
  | refl =>
    obtain ⟨g, hg⟩ := Next.exists_ended hend
    exact Next.lexes_of_ended hg
  | step hn => exact Next.lexes_of_token hn

theorem trailed_lockstep (u : List Char) (hend : s₁.next.kind = .eof) :
    Reading.Lockstep Grammar.Follows (Offset 0 0) (Trailed u) (·.Reaches s₁) where
  back h hr := .step h hr
  kind := by
    intro s s' h hr
    cases hr with
    | refl =>
      obtain ⟨g, hg⟩ := Next.exists_ended hend
      rw [hend, Scan.next, h.expected, h.rest, h.alone.ended_trailer hg]
    | step hnext hr =>
      rw [h.next_token hnext (hr.lexes_of_eof hend), hnext]
      rfl
  take := by
    intro s s' t r e h hnext hT hr
    have hnext' := h.next_token hnext (hr.lexes_of_eof hend)
    refine ⟨t, _, hnext', rfl, by rw [h.taken], rfl, rfl, h.alone.after_token hnext hT, ?_⟩
    rw [Scan.next, h.expected, h.rest] at hnext'
    exact h.before.after_token hnext' hT
  count h := by
    rw [h.taken]
    exact ⟨_, (Nat.zero_add _).symm, (Nat.zero_add _).symm⟩
  text h hij := by
    rw [Scan.textFrom, Scan.textFrom, h.taken, hij.eq]

/-- What is read between brackets is read with the comment behind it as well, which is left over. -/
theorem Reading.whole_trailer {α : Type} {reading : Nat → Reading α} {start : Expectation} {a : α}
    (hv : Enclosed v u) (h : ∀ n, Grammar.Steady (Offset 0 0) 5 reading n)
    (hrun : (Reading.whole reading (depth v)).run (.start start v) = .ok (a, s₁)) :
    ∃ s', (Reading.whole reading (depth (v ++ trailer u))).run (.start start (v ++ trailer u)) =
        .ok (a, s') ∧ s'.taken = s₁.taken ∧ s'.rest = s₁.rest ++ trailer u := by
  obtain ⟨-, hend⟩ := Grammar.whole_ok_iff.mp hrun
  have hsteady := whole_steady (h (depth v)) (depth (v ++ trailer u)) v.length start none
    (by simp [depth]; omega) (by simp [depth]; omega)
  have hstart : Trailed u (.start start v) (.start start (v ++ trailer u)) :=
    ⟨rfl, rfl, rfl, .inl hv.tiled, .inl hv.tiled_trailer⟩
  obtain ⟨hok, -⟩ := follow hsteady (trailed_lockstep u hend) hstart rfl (by simp) (Nat.le_refl _)
  obtain ⟨b, s', -, hrun', rfl, hs'⟩ := hok a s₁ hrun (.refl s₁)
  exact ⟨s', hrun', hs'.taken, hs'.rest⟩

/-- What a source between brackets is read as is read with the comment behind it. -/
theorem Source.exists_run_trailer {α β : Type} {file args : String} {goal : Goal}
    {start : Expectation} {reading : Nat → Reading α} {place : (Extent → Location) → α → β} {b : β}
    (hv : Enclosed args.toList u) (hsteady : ∀ n, Grammar.Steady (Offset 0 0) 5 reading n)
    (h : Source.parse ⟨file, args, none⟩ goal start reading place = .ok b) :
    ∃ f a s', b = place f a ∧ (reading (depth (args.toList ++ trailer u))).run
        (.start start (args.toList ++ trailer u)) = .ok (a, s') ∧ trailer u <:+ s'.rest := by
  rw [Source.parse, Source.parseM_plain, Source.chars, Reading.parse_eq] at h
  cases hrun : (Reading.whole reading (depth args.toList)).run (.start start args.toList) with
  | error s => simp [hrun] at h
  | ok q =>
    obtain ⟨a, s₁⟩ := q
    obtain ⟨s', hrun', -, hrest⟩ := Reading.whole_trailer hv hsteady hrun
    simp only [hrun] at h
    exact ⟨_, a, s', (Except.ok.inj h).symm, (Grammar.whole_ok_iff.mp hrun').1,
      hrest ▸ List.suffix_append _ _⟩

end ShadowImpl
