import ShadowImpl.Proofs.Enclosed

/-!
# Gaps in front of tokens

What the scanner passes over in front of a token is passed over in front of anything else as well,
and under every expectation that takes no comment of it for documentation.
-/

namespace ShadowImpl

open Lexeme Recogniser

variable {e e' : Expectation} {x y u z g ws : List Char} {t : Token} {k : Nat}

/-! ## Comments -/

theorem before_comment :
    before .comment = [.terminal .docComment, .terminal .rawString, .terminal .innerDoc] := rfl

/-- A comment in `x` is the first thing to be read whatever follows, if it ends there. -/
theorem first_comment (h : first e (x ++ u) = some (.comment, k)) (hk : k ≤ x.length)
    (hx : x ≠ ['/', '/', '/']) (hcomment : Recogniser.comment (x ++ z) = some k) :
    first e (x ++ z) = some (.comment, k) := by
  obtain ⟨hl, ht, hr, hb⟩ := first_eq_some_iff.mp h
  refine first_eq_some_iff.mpr ⟨hl, ht, hcomment, fun m hm htried => ?_⟩
  have hnone := hb m hm htried
  cases hz : m.recognise (x ++ z) with
  | none => rfl
  | some j =>
    exfalso
    -- A documentation comment is as long as the comment, so it would have been found before `u`.
    have hj : j = k := by
      simp only [before_comment, List.mem_cons, List.not_mem_nil, or_false] at hm
      rcases hm with rfl | rfl | rfl
      · exact Option.some.inj ((comment_of_docComment hz).symm.trans hcomment)
      · rcases comment_eq_some.mp hcomment with h | h <;>
          obtain ⟨r, i, hr, -⟩ := after_eq_some.mp h <;>
          rw [hr] at hz <;> simp [recognise, Terminal.recognise, rawString] at hz
      · exact Option.some.inj ((comment_of_innerDoc hz).symm.trans hcomment)
    have hx' := recognise_cuts m hz (by omega)
    rcases recognise_isSome_append (l := m) (x := x) (by simp [hx']) u with hs | hs
    · simp [hnone] at hs
    · exact hx hs.2.1

theorem first_comment_expect (h : first e x = some (.comment, k))
    (hdoc : .docComment ∈ e' → .docComment ∈ e) (hinner : .innerDoc ∈ e' → .innerDoc ∈ e) :
    first e' x = some (.comment, k) := by
  obtain ⟨hl, -, hr, hb⟩ := first_eq_some_iff.mp h
  refine first_eq_some_iff.mpr ⟨hl, rfl, hr, fun m hm htried => ?_⟩
  simp only [before_comment, List.mem_cons, List.not_mem_nil, or_false] at hm
  rcases hm with rfl | rfl | rfl
  · refine hb _ (by decide) ?_
    simp only [tried, Bool.and_eq_true, List.contains_iff_mem] at htried ⊢
    exact ⟨hdoc htried.1, by simp [Terminal.keywords]⟩
  · rcases comment_eq_some.mp hr with h | h <;> obtain ⟨r, i, rfl, -⟩ := after_eq_some.mp h <;> rfl
  · refine hb _ (by decide) ?_
    simp only [tried, Bool.and_eq_true, List.contains_iff_mem] at htried ⊢
    exact ⟨hinner htried.1, by simp [Terminal.keywords]⟩

/-! ## Gaps -/

/-- A text that is passed over under an expectation, whatever stands behind it: layout, comments up
to the end of their lines and comments in brackets. -/
inductive Gap (e : Expectation) : List Char → Prop where
  | nil : Gap e []
  | layout {c : Char} {g : List Char} (hc : isLayout c = true) (h : Gap e g) : Gap e (c :: g)
  | line {c g : List Char} (hc : ∀ z, first e (c ++ '\n' :: z) = some (.comment, c.length))
      (h : Gap e ('\n' :: g)) : Gap e (c ++ '\n' :: g)
  | block {c g : List Char} (hc : ∀ z, first e (c ++ z) = some (.comment, c.length))
      (hend : c.getLast? = some '/') (h : Gap e g) : Gap e (c ++ g)

namespace Gap

theorem of_append (h : Gap e g) (z : List Char) : Next.of e (g ++ z) = (Next.of e z).prepend g := by
  induction h with
  | nil => rw [List.nil_append, Next.prepend_nil]
  | @layout c g hc _ ih =>
    rw [List.cons_append, ← List.singleton_append, Next.of_layout_append (by simpa using hc), ih,
      Next.prepend_prepend, List.singleton_append]
  | @line c g hc _ ih =>
    rw [List.append_assoc, List.cons_append, Next.of_skip (hc _) rfl,
      List.drop_left, List.take_left, ← List.cons_append, ih, Next.prepend_prepend]
  | @block c g hc _ _ ih =>
    rw [List.append_assoc, Next.of_skip (hc _) rfl, List.drop_left, List.take_left, ih,
      Next.prepend_prepend]

theorem expect (h : Gap e g) (hdoc : .docComment ∈ e' → .docComment ∈ e)
    (hinner : .innerDoc ∈ e' → .innerDoc ∈ e) : Gap e' g := by
  induction h with
  | nil => exact .nil
  | layout hc _ ih => exact .layout hc ih
  | line hc _ ih => exact .line (fun z => first_comment_expect (hc z) hdoc hinner) ih
  | block hc hend _ ih => exact .block (fun z => first_comment_expect (hc z) hdoc hinner) hend ih

theorem layout_append (hu : ∀ c ∈ u, isLayout c = true) (h : Gap e g) : Gap e (u ++ g) := by
  induction u with
  | nil => exact h
  | cons c u ih => exact .layout (hu c (by simp)) (ih fun d hd => hu d (by simp [hd]))

/-- Layout at the start of a gap may be missing. -/
theorem of_layout_append (h : Gap e (u ++ g)) (hu : ∀ c ∈ u, isLayout c = true) : Gap e g := by
  induction u with
  | nil => exact h
  | cons c u ih =>
    have hc := hu c (by simp)
    refine ih ?_ fun d hd => hu d (by simp [hd])
    -- No comment starts with layout.
    have hcomment : ∀ {w z : List Char} {k : Nat}, first e (w ++ z) = some (.comment, k) →
        w ++ z ≠ c :: (u ++ g) := by
      intro w z k hw heq
      rw [heq, Next.first_of_layout hc] at hw
      simp at hw
    generalize hx : c :: u ++ g = x at h
    cases h with
    | nil => simp at hx
    | layout _ h =>
      obtain ⟨rfl, rfl⟩ := List.cons.inj hx
      exact h
    | line hw _ => exact absurd hx.symm (hcomment (hw _))
    | block hw _ _ => exact absurd hx.symm (hcomment (hw _))

theorem append (h : Gap e g) (h' : Gap e y) : Gap e (g ++ y) := by
  induction h with
  | nil => exact h'
  | layout hc _ ih => exact .layout hc ih
  | line hc _ ih =>
    rw [List.append_assoc, List.cons_append]
    exact .line hc ih
  | block hc hend _ ih =>
    rw [List.append_assoc]
    exact .block hc hend ih

theorem lexes (h : Gap e g) : Lexes g := by
  cases h with
  | nil => exact .inl rfl
  | layout hc _ => exact .inr ⟨e, _, _, Next.first_of_layout hc _⟩
  | line hc _ => exact .inr ⟨e, _, _, hc _⟩
  | block hc _ _ => exact .inr ⟨e, _, _, hc _⟩

/-- A gap that has neither a line end nor a slash is layout. -/
theorem isLayout_of_mem (h : Gap e ws) (hline : '\n' ∉ ws) (hslash : '/' ∉ ws) :
    ∀ c ∈ ws, isLayout c = true := by
  induction h with
  | nil => simp
  | layout hc _ ih =>
    simp only [List.mem_cons, not_or] at hline hslash
    simp only [List.mem_cons, forall_eq_or_imp]
    exact ⟨hc, ih hline.2 hslash.2⟩
  | line => exact absurd (by simp) hline
  | block hc hend _ _ =>
    exact absurd (List.mem_append_left _ (List.mem_of_getLast? hend)) hslash

/-- Such an end of a gap may be missing. -/
theorem trim (h : Gap e (g ++ ws)) (hline : '\n' ∉ ws) (hslash : '/' ∉ ws) :
    Gap e g ∧ ∀ c ∈ ws, isLayout c = true := by
  generalize hx : g ++ ws = x at h
  induction h generalizing g with
  | nil =>
    obtain ⟨rfl, rfl⟩ := List.append_eq_nil_iff.mp hx
    exact ⟨.nil, by simp⟩
  | @layout c g₀ hc hg₀ ih =>
    cases g with
    | nil =>
      obtain rfl : ws = c :: g₀ := hx
      exact ⟨.nil, isLayout_of_mem (.layout hc hg₀) hline hslash⟩
    | cons d g =>
      obtain ⟨rfl, hx'⟩ := List.cons.inj hx
      obtain ⟨hg, hws⟩ := ih hx'
      exact ⟨.layout hc hg, hws⟩
  | @line c g₀ hc _ ih =>
    rcases List.append_eq_append_iff.mp hx with ⟨a, rfl, hws⟩ | ⟨a, rfl, hg⟩
    · exact absurd (by rw [hws]; simp) hline
    · cases a with
      | nil =>
        rw [List.nil_append] at hg
        exact absurd (by simp [← hg]) hline
      | cons d a =>
        obtain ⟨rfl, -⟩ := List.cons.inj hg
        obtain ⟨hg', hws⟩ := ih hg.symm
        exact ⟨.line hc hg', hws⟩
  | @block c g₀ hc hend hg₀ ih =>
    rcases List.append_eq_append_iff.mp hx with ⟨a, rfl, hws⟩ | ⟨a, rfl, hg⟩
    · cases a with
      | nil =>
        rw [List.nil_append] at hws
        subst hws
        rw [List.append_nil] at hc hend
        refine ⟨?_, isLayout_of_mem hg₀ hline hslash⟩
        simpa using Gap.block hc hend .nil
      | cons d a =>
        -- The comment would end in the text that has no slash.
        rw [List.getLast?_append_of_ne_nil _ (by simp)] at hend
        refine absurd ?_ hslash
        rw [hws]
        exact List.mem_append_left _ (List.mem_of_getLast? hend)
    · obtain ⟨hg', hws⟩ := ih hg.symm
      exact ⟨.block hc hend hg', hws⟩

end Gap

/-- A text up to the end of a mark ends in the mark. -/
theorem through_suffix {mark s : List Char} (h : through mark s = some k) : mark <:+ s.take k := by
  fun_induction through mark s generalizing k with
  | case1 => simp_all
  | case2 => simp at h
  | case3 c r hp =>
    obtain rfl := Option.some.inj h
    obtain ⟨t, ht⟩ := List.isPrefixOf_iff_prefix.mp hp
    refine ⟨[], ?_⟩
    rw [← ht, List.take_left, List.nil_append]
  | case4 c r hp ih =>
    obtain ⟨j, hj, rfl⟩ := Option.map_eq_some_iff.mp h
    rw [List.take_succ_cons]
    exact (ih hj).trans (List.suffix_cons c _)

/-- A comment in front of a gap. -/
theorem Gap.comment_append {s : List Char} (h : first e s = some (.comment, k))
    (hs : s.drop k = g ++ z) (hz : StaysOnLine z) (hg : Gap e g) : Gap e (s.take k ++ g) := by
  have hk := (first_bounds h).2
  have hlen : (s.take k).length = k := List.length_take_of_le hk
  have hsplit : s = s.take k ++ (g ++ z) := by rw [← hs, List.take_append_drop]
  rcases comment_eq_some.mp (first_eq_some h).2 with hc | hc
  · obtain ⟨r, j, rfl, hj, rfl⟩ := after_eq_some.mp hc
    obtain rfl : Recogniser.line r = j := by simpa using hj
    -- The comment goes on to the end of its line, so the gap behind it starts with a line end.
    have hrest : r.dropWhile (· ≠ '\n') = g ++ z := by
      rw [← hs, ← drop_run, Nat.add_comm, List.drop_length_add_append]
      rfl
    obtain ⟨g, rfl⟩ : ∃ g', g = '\n' :: g' := by
      obtain ⟨c, z, rfl, hc⟩ := hz
      have hhead := List.head?_dropWhile_not (· ≠ '\n') r
      rw [hrest] at hhead
      cases g with
      | nil => simp [hc] at hhead
      | cons d g => exact ⟨g, by simpa using hhead⟩
    have htake : (['/', '/'] ++ r).take (Recogniser.line r + ['/', '/'].length) =
        ['/', '/'] ++ r.takeWhile (· ≠ '\n') := by
      rw [Nat.add_comm, List.take_length_add_append, Recogniser.line, run]
      exact congrArg _ (List.prefix_iff_eq_take.mp (List.takeWhile_prefix _)).symm
    refine Gap.line (fun z' => ?_) hg
    rw [hlen, List.append_cons]
    refine first_comment (u := g ++ z) ?_ (by rw [List.length_append, hlen]; omega) ?_ ?_
    · rw [← List.append_cons, ← List.cons_append, ← hsplit]
      exact h
    · intro heq
      have := congrArg List.getLast? heq
      rw [List.getLast?_append_of_ne_nil _ (by simp)] at this
      simp at this
    · have hline : Recogniser.line (r.takeWhile (· ≠ '\n') ++ '\n' :: z') = Recogniser.line r :=
        run_eq_of_append (fun c hc => by simpa using List.mem_takeWhile_imp hc) (by simp)
      rw [htake, ← List.append_cons, List.append_assoc]
      refine comment_eq_some.mpr (.inl (after_eq_some.mpr ⟨_, _, rfl, rfl, ?_⟩))
      rw [hline]
  · have hend : (s.take k).getLast? = some '/' := by
      obtain ⟨r, j, rfl, hj, rfl⟩ := after_eq_some.mp hc
      obtain ⟨p, hp⟩ := through_suffix hj
      rw [Nat.add_comm, List.take_length_add_append, ← hp,
        List.getLast?_append_of_ne_nil _ (by simp), List.getLast?_append_of_ne_nil _ (by simp)]
      rfl
    have hcut : after ['/', '*'] blockRest (s.take k) = some k := by
      rw [hsplit] at hc
      exact blockRest_cuts.after _ hc (by omega)
    refine .block (fun z' => ?_) hend hg
    rw [hlen]
    refine first_comment (u := g ++ z) (by rw [← hsplit]; exact h) (by omega) ?_
      (comment_eq_some.mpr (.inr (blockRest_grows.after _ hcut z')))
    intro heq
    obtain ⟨r, j, hr, -⟩ := after_eq_some.mp (heq ▸ hcut)
    simp at hr

/-- What is passed over in front of a token. -/
theorem gap_of_token (h : Next.of e x = .token t y) : Gap e t.gap := by
  have hf := Next.found e x
  have hline := StaysOnLine.of_token h y
  rw [h] at hf
  clear h
  generalize hn : Next.token t y = n at hf
  -- By induction on what is skipped: layout, or a comment that the text behind it ends.
  induction hf generalizing t with
  | ended | unknown => simp at hn
  | token =>
    obtain ⟨rfl, -⟩ := Next.token.inj hn
    exact .nil
  | @skip s l k n hl hskip rest ih =>
    cases n with
    | ended | unknown => simp [Next.prepend] at hn
    | token t' y' =>
      obtain ⟨rfl, rfl⟩ := Next.token.inj hn
      have hgap : Gap e t'.gap := ih hline rfl
      have hs := (Next.of_eq_token rest.eq_of).1
      cases l with
      | terminal => simp [skipped] at hskip
      | layout =>
        have hr := (first_eq_some hl).2
        simp only [recognise, Recogniser.layout, some1] at hr
        split at hr
        · simp at hr
        · obtain rfl := Option.some.inj hr
          exact Gap.layout_append (within_run (fun _ h => h) s) hgap
      | comment => exact Gap.comment_append hl (by rw [hs, List.append_assoc]) hline hgap

/-! ## Tokens behind a gap -/

/-- A token without its gap. -/
theorem of_text (h : Next.of e x = .token t y) :
    Next.of e (t.text ++ y) = .token ⟨t.kind, [], t.text⟩ y := by
  obtain ⟨-, v, hkind, hv⟩ := Next.of_eq_token h
  rw [Next.of_token hv, List.take_left, List.drop_left, hkind]

/-- A token is found behind its gap if it is found without one. -/
theorem Gap.of_token (hg : Gap e g) {κ : Terminal} {w : List Char}
    (h : Next.of e (w ++ z) = .token ⟨κ, [], w⟩ z) :
    Next.of e (g ++ (w ++ z)) = .token ⟨κ, g, w⟩ z := by
  rw [hg.of_append, h, Next.prepend, List.append_nil]

theorem text_of_rsqb (h : Next.of e x = .token t y) (ht : t.kind = .rsqb) : t.text = [']'] := by
  rw [Next.text_of_token h (by simp [ht, Terminal.symbols]), ht]
  rfl

/-- A closing bracket, whatever follows. -/
theorem of_rsqb (h : Next.of e x = .token t y) (ht : t.kind = .rsqb) (z : List Char) :
    Next.of e (t.gap ++ ']' :: z) = .token t z := by
  have htext := text_of_rsqb h ht
  have only_bracket : order.filter (·.starts ']') = [.terminal .rsqb] := by decide
  have hstarts : ∀ m ∈ before (.terminal .rsqb), m.starts ']' = false := by decide
  obtain ⟨-, v, hkind, hv⟩ := Next.of_eq_token h
  rw [htext] at hv
  have hmem := (starts_of_first (c := ']') (r := y) hv).1
  obtain rfl : v = .rsqb := by simpa [only_bracket] using hmem
  have hfirst : first e (']' :: z) = some (.terminal .rsqb, 1) := by
    refine first_eq_some_iff.mpr ⟨by decide, (first_eq_some hv).1, rfl, fun m hm _ => ?_⟩
    exact recognise_eq_none_of_starts (hstarts m hm)
  rw [show t = ⟨.rsqb, t.gap, [']']⟩ by rw [← ht, ← htext]]
  exact (gap_of_token h).of_token (w := [']']) (Next.of_token hfirst)

/-- A documentation comment goes up to the end of its line. -/
theorem docComment_append {w : List Char} (h : docComment w = some w.length)
    (hz : ['/', '/'] <+: w → z.head? = none ∨ z.head? = some '\n') :
    docComment (w ++ z) = some w.length := by
  rcases docComment_eq_some.mp h with ⟨r, rfl, hr, hlen⟩ | ⟨r, j, rfl, h1, h2, hj, hlen⟩
  · have hend := hz ⟨'/' :: r, rfl⟩
    have hr' : line r = r.length := by
      simp only [List.length_cons] at hlen
      omega
    have hz' : line z = 0 := by
      cases z with
      | nil => rfl
      | cons c z =>
        obtain rfl : c = '\n' := by simpa using hend
        rfl
    refine docComment_eq_some.mpr (.inl ⟨r ++ z, rfl, ?_, ?_⟩)
    · cases r with
      | nil => rcases hend with hend | hend <;> simp [hend]
      | cons c r => exact hr
    · rw [line, run_append, ← line, if_pos hr', ← line, hz', List.length_cons, List.length_cons,
        List.length_cons]
      omega
  · cases r with
    | nil => simp [blockRest, through] at hj
    | cons c r =>
      exact docComment_eq_some.mpr (.inr ⟨c :: r ++ z, j, rfl, h1, h2, blockRest_grows hj z, hlen⟩)

/-- A token that is no name and no keyword was found as what it is. -/
theorem first_of_token (h : Next.of e x = .token t y)
    (ht : t.kind ∉ Terminal.ident :: Terminal.keywords) :
    first e (t.text ++ y) = some (.terminal t.kind, t.text.length) := by
  obtain ⟨-, v, hkind, hv⟩ := Next.of_eq_token h
  by_cases hi : v = .ident
  · subst hi
    rw [Terminal.settle, if_pos rfl] at hkind
    rcases ofName_cases e t.text with hn | hn <;> simp [hkind, hn] at ht
  · rwa [hkind, Terminal.settle, if_neg hi]

/-- A token of this class was recognised as one. -/
theorem docComment_of_token (h : Next.of e x = .token t y) (ht : t.kind = .docComment) :
    docComment (t.text ++ y) = some t.text.length ∧ .docComment ∈ e := by
  have hfirst := first_of_token h (by simp [ht, Terminal.keywords])
  obtain ⟨htried, hr⟩ := first_eq_some hfirst
  rw [ht] at hr htried
  simp only [tried, Bool.and_eq_true, List.contains_iff_mem] at htried
  exact ⟨hr, htried.1⟩

/-- Where documentation comments are expected, they are tried before anything else. -/
theorem of_docComment_text {w : List Char} (he : .docComment ∈ e)
    (h : docComment (w ++ z) = some w.length) :
    Next.of e (w ++ z) = .token ⟨.docComment, [], w⟩ z := by
  have hfirst : first e (w ++ z) = some (.terminal .docComment, w.length) := by
    refine first_eq_some_iff.mpr ⟨by decide, ?_, h, ?_⟩
    · simp [tried, Terminal.keywords, he]
    · have : before (.terminal .docComment) = [] := rfl
      simp [this]
  rw [Next.of_token hfirst, List.take_left, List.drop_left]
  rfl

/-- A documentation comment, whatever follows it on another line. -/
theorem of_docComment (h : Next.of e x = .token t y) (ht : t.kind = .docComment)
    (hz : ['/', '/'] <+: t.text → z.head? = none ∨ z.head? = some '\n') :
    Next.of e (t.gap ++ (t.text ++ z)) = .token t z := by
  obtain ⟨hr, he⟩ := docComment_of_token h ht
  have hw : docComment t.text = some t.text.length := docComment_cuts hr (Nat.le_refl _)
  have hof := (gap_of_token h).of_token (of_docComment_text he (docComment_append hw hz))
  rwa [← ht] at hof

/-- A keyword or a symbol is found by its letters where nothing else that is tried starts with the
first of them. -/
theorem of_spelling {κ : Terminal} {c : Char} {w : List Char} (hs : κ.spelling = c :: w)
    (hr : κ.recognise = exactly κ.spelling) (hκ : .terminal κ ∈ order ∧ κ ≠ .ident)
    (ht : tried e (.terminal κ) = true)
    (hb : ∀ m ∈ before (.terminal κ), tried e m = true → m.starts c = false) (z : List Char) :
    Next.of e (κ.spelling ++ z) = .token ⟨κ, [], κ.spelling⟩ z := by
  have hfirst : first e (κ.spelling ++ z) = some (.terminal κ, κ.spelling.length) := by
    refine first_eq_some_iff.mpr ⟨hκ.1, ht, ?_, fun m hm hm' => ?_⟩
    · rw [recognise, hr, exactly_append]
    · rw [hs]
      exact recognise_eq_none_of_starts (hb m hm hm')
  rw [Next.of_token hfirst, List.take_left, List.drop_left, Terminal.settle, if_neg hκ.2]

/-- What a block can start with is found at its start as well as behind an attribute. -/
theorem of_block (h : Next.of Expected.afterAttribute x = .token t y)
    (ht : t.kind ∈ Expected.block) (hg : Gap Expected.block g) :
    Next.of Expected.block (g ++ (t.text ++ y)) = .token ⟨t.kind, g, t.text⟩ y := by
  refine hg.of_token ?_
  simp only [Expected.block, List.mem_cons, List.not_mem_nil, or_false] at ht
  rcases ht with ht | ht | ht | ht
  · rw [ht]
    exact of_docComment_text (by decide) (docComment_of_token h ht).1
  all_goals
    rw [Next.text_of_token h (by rw [ht]; decide), ht]
    exact of_spelling rfl rfl (by decide) (by decide) (by decide) y

end ShadowImpl
