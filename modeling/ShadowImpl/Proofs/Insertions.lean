import ShadowImpl.Proofs.BlockParts
import ShadowImpl.Proofs.Brackets
import ShadowImpl.Proofs.Junctions
import ShadowImpl.Proofs.MetaPaths

/-!
# Insertions into bodies

Some raw strings and comments may be put anywhere between two tokens of a body: the scanner passes
over them or takes each as one token, whatever stands in it. Then the brackets of the body match as
they did, so the body ends where it ended.
-/

namespace ShadowImpl

open Lexeme Recogniser

variable {c w x y z g g₁ g₂ : List Char} {t : Token} {ts us : List Token}

/-! ## Closed texts -/

/-- The end of a raw string with `n` hashes. -/
def rawEnd (n : Nat) : List Char :=
  '"' :: List.replicate n '#'

/-- The end of a block comment. -/
def commentEnd : List Char :=
  ['*', '/']

/-- A raw string with at most two hashes, or a block comment without another one inside. -/
inductive Closed : List Char → Prop where
  | raw {lead c : List Char} {n : Nat} (hlead : lead ∈ [['r'], ['b', 'r']]) (hn : n ≤ 2)
      (hc : ¬ rawEnd n <:+: c) : Closed (lead ++ (List.replicate n '#' ++ '"' :: (c ++ rawEnd n)))
  | comment {c : List Char} (hc : ¬ commentEnd <:+: c) : Closed ('/' :: '*' :: (c ++ commentEnd))

/-- A text ends at a mark that is not inside of it, if the first character of the mark does not come
again in the mark. -/
theorem through_append {a : Char} {m : List Char} (ha : a ∉ m) (hc : ¬ a :: m <:+: c)
    (z : List Char) : through (a :: m) (c ++ (a :: m ++ z)) = some (c.length + (m.length + 1)) := by
  induction c with
  | nil => simp [through]
  | cons d c ih =>
    have hnot : (a :: m).isPrefixOf (d :: (c ++ (a :: m ++ z))) = false := by
      rw [← List.cons_append, Bool.eq_false_iff, Ne, List.isPrefixOf_iff_prefix]
      intro hp
      rcases List.prefix_or_prefix_of_prefix hp (List.prefix_append (d :: c) _) with h | ⟨r, hr⟩
      · exact hc h.isInfix
      · -- The mark starts again inside of itself.
        rw [← hr, List.prefix_append_right_inj] at hp
        obtain ⟨rfl, hm⟩ := List.cons.inj hr
        cases r with
        | nil => exact hc ⟨[], [], by simpa using hr.symm⟩
        | cons b r =>
          obtain ⟨rfl, -⟩ := List.cons_prefix_cons.mp hp
          exact ha (hm ▸ by simp)
    have hc' : ¬ a :: m <:+: c := fun h => hc (h.trans (List.suffix_cons d c).isInfix)
    rw [List.cons_append, through, hnot, if_neg (by decide), ih hc']
    simp
    omega

theorem through_rawEnd {n : Nat} (hc : ¬ rawEnd n <:+: c) (z : List Char) :
    through (rawEnd n) (c ++ (rawEnd n ++ z)) = some (c.length + (n + 1)) := by
  simpa [rawEnd] using through_append (a := '"') (m := List.replicate n '#') (by simp) hc z

theorem through_commentEnd (hc : ¬ commentEnd <:+: c) (z : List Char) :
    through ['*', '/'] (c ++ ('*' :: '/' :: z)) = some (c.length + 2) :=
  through_append (a := '*') (m := ['/']) (by decide) hc z

/-- A raw string is found as one token. -/
theorem rawString_of_closed {lead : List Char} {n : Nat}
    (hlead : lead ∈ [['r'], ['b', 'r']]) (hn : n ≤ 2) (hc : ¬ rawEnd n <:+: c) (z : List Char) :
    rawString (lead ++ (List.replicate n '#' ++ '"' :: (c ++ rawEnd n)) ++ z) =
      some (lead ++ (List.replicate n '#' ++ '"' :: (c ++ rawEnd n))).length := by
  have hend := through_rawEnd hc z
  have hrest : rawRest (List.replicate n '#' ++ '"' :: (c ++ (rawEnd n ++ z))) =
      some (c.length + (2 * n + 2)) := by
    obtain rfl | rfl | rfl : n = 0 ∨ n = 1 ∨ n = 2 := by omega
    all_goals
      simp only [rawEnd, List.replicate, List.nil_append, List.cons_append] at hend ⊢
      rw [rawRest, hend]
      simp
  simp only [List.mem_cons, List.not_mem_nil, or_false] at hlead
  rcases hlead with rfl | rfl
  all_goals
    simp only [List.cons_append, List.nil_append, List.append_assoc] at hrest ⊢
    rw [rawString, hrest]
    simp [rawEnd]
    omega

/-- A text that is passed over, or found as one token that is no bracket, whatever stands behind. -/
def Inert (w : List Char) : Prop :=
  Gap Expected.anything w ∨ ∃ κ, Grammar.admits Grammar.separators κ = true ∧
    ∀ z, Next.of Expected.anything (w ++ z) = .token ⟨κ, [], w⟩ z

/-- Documentation and raw strings are tried before comments and names. -/
theorem inert_of_recognise {κ : Terminal} (hκ : κ ∈ [Terminal.docComment, .rawString, .innerDoc])
    (h : ∀ z, κ.recognise (w ++ z) = some w.length)
    (hfree : ∀ z, ∀ m ∈ before (.terminal κ), m.recognise (w ++ z) = none) : Inert w := by
  have hclass : .terminal κ ∈ order ∧ (Lexeme.terminal κ).tried Expected.anything =
      true ∧ κ ≠ .ident ∧ Grammar.admits Grammar.separators κ = true := by
    clear h hfree
    revert κ
    decide
  refine .inr ⟨κ, hclass.2.2.2, fun z => ?_⟩
  have hfirst : first Expected.anything (w ++ z) = some (.terminal κ, w.length) :=
    first_eq_some_iff.mpr ⟨hclass.1, hclass.2.1, h z, fun m hm _ => hfree z m hm⟩
  rw [Next.of_token hfirst, List.take_left, List.drop_left, Terminal.settle, if_neg hclass.2.2.1]

theorem comment_of_closed (hc : ¬ commentEnd <:+: c) (z : List Char) :
    Recogniser.comment ('/' :: '*' :: (c ++ commentEnd) ++ z) =
      some ('/' :: '*' :: (c ++ commentEnd)).length := by
  simp [Recogniser.comment, blockRest, commentEnd, through_commentEnd hc]

/-- A comment that documents nothing is passed over. -/
theorem inert_of_comment (hc : ¬ commentEnd <:+: c)
    (hdoc : ∀ z, docComment ('/' :: '*' :: (c ++ commentEnd) ++ z) = none)
    (hinner : ∀ z, innerDoc ('/' :: '*' :: (c ++ commentEnd) ++ z) = none) :
    Inert ('/' :: '*' :: (c ++ commentEnd)) := by
  left
  rw [← List.append_nil ('/' :: '*' :: (c ++ commentEnd))]
  refine .block (fun z => ?_) ?_ .nil
  · refine first_eq_some_iff.mpr ⟨by decide, rfl, comment_of_closed hc z, fun m hm _ => ?_⟩
    simp only [before_comment, List.mem_cons, List.not_mem_nil, or_false] at hm
    rcases hm with rfl | rfl | rfl
    · exact hdoc z
    · rfl
    · exact hinner z
  · rw [← List.cons_append, ← List.cons_append, List.getLast?_append_of_ne_nil _
      (by simp [commentEnd])]
    rfl

/-- What stands behind the opening of a comment tells what kind of comment it is. -/
theorem inert_comment (hc : ¬ commentEnd <:+: c) : Inert ('/' :: '*' :: (c ++ commentEnd)) := by
  have hbehind : ∀ {d : Char} {c' : List Char}, c = d :: c' → ¬ commentEnd <:+: c' := by
    rintro d c' rfl h
    exact hc (h.trans (List.suffix_cons d c').isInfix)
  rcases c with _ | ⟨d, c⟩
  · exact inert_of_comment hc (fun _ => rfl) fun _ => rfl
  -- Two stars make documentation, unless a third one or a slash follows.
  by_cases hstar : d = '*'
  · subst hstar
    rcases c with _ | ⟨d, c⟩
    · exact inert_of_comment hc (fun _ => rfl) fun _ => rfl
    by_cases htwo : d = '*'
    · subst htwo
      exact inert_of_comment hc (fun _ => rfl) fun _ => rfl
    have hslash : d ≠ '/' := by
      rintro rfl
      exact hc ⟨[], c, rfl⟩
    refine inert_of_recognise (κ := .docComment) (by decide) (fun z => ?_) fun z m hm => ?_
    · have := through_commentEnd (hbehind rfl) z
      simp_all [Terminal.recognise, docComment, blockRest, commentEnd]
    · have : before (.terminal .docComment) = [] := rfl
      simp [this] at hm
  -- A bang makes inner documentation.
  by_cases hbang : d = '!'
  · subst hbang
    refine inert_of_recognise (κ := .innerDoc) (by decide) (fun z => ?_) fun z m hm => ?_
    · have := through_commentEnd (hbehind rfl) z
      simp_all [Terminal.recognise, innerDoc, blockRest, commentEnd]
    · have : before (.terminal .innerDoc) = [.terminal .docComment, .terminal .rawString] := rfl
      simp only [this, List.mem_cons, List.not_mem_nil, or_false] at hm
      rcases hm with rfl | rfl <;> rfl
  · refine inert_of_comment hc (fun z => ?_) fun z => ?_ <;> simp [docComment,
      innerDoc, hstar, hbang]

theorem Closed.inert (h : Closed w) : Inert w := by
  cases h with
  | raw hlead hn hc =>
    refine inert_of_recognise (κ := .rawString) (by decide) (rawString_of_closed hlead hn hc) ?_
    intro z m hm
    have : before (.terminal .rawString) = [.terminal .docComment] := rfl
    obtain rfl : m = .terminal .docComment := by simpa [this] using hm
    simp only [List.mem_cons, List.not_mem_nil, or_false] at hlead
    rcases hlead with rfl | rfl <;> rfl
  | comment hc => exact inert_comment hc

/-! ## An insertion -/

theorem gap_space : Gap Expected.anything [' '] :=
  .layout (by decide) .nil

/-- The token `t` or one like it stands behind an insertion. -/
theorem Scanned.insert (hw : Inert w) (hg : Gap Expected.anything g)
    (h : Scanned (g ++ y) (t :: us) z) :
    ∃ vs t', (vs = [] ∨ ∃ u, vs = [u] ∧ Grammar.admits Grammar.separators u.kind = true) ∧
      t'.kind = t.kind ∧ Scanned (g ++ (' ' :: (w ++ ' ' :: y))) (vs ++ t' :: us) z := by
  cases h with
  | @cons _ r _ _ _ hnext hus =>
    rw [hg.of_append] at hnext
    obtain ⟨t₀, hy, rfl⟩ : ∃ t₀, Next.of Expected.anything y = .token t₀ r ∧
        ⟨t₀.kind, g ++ t₀.gap, t₀.text⟩ = t := by
      cases hy : Next.of Expected.anything y <;> simp_all [Next.prepend]
    rcases hw with hw | ⟨κ, hκ, hw⟩
    · refine ⟨[], ⟨t₀.kind, g ++ ([' '] ++ (w ++ [' '])) ++ t₀.gap, t₀.text⟩, .inl rfl,
        rfl, .cons ?_ hus⟩
      have := (hg.append (gap_space.append (hw.append gap_space))).of_append y
      rw [hy] at this
      simpa [Next.prepend] using this
    · refine ⟨[⟨κ, g ++ [' '], w⟩], ⟨t₀.kind, ' ' :: t₀.gap, t₀.text⟩, .inr ⟨_, rfl, hκ⟩, rfl,
        .cons (y := ' ' :: y) ?_ (.cons ?_ hus)⟩
      · have := (hg.append gap_space).of_append (w ++ ' ' :: y)
        rw [hw] at this
        simpa [Next.prepend] using this
      · have := gap_space.of_append y
        rw [hy] at this
        simpa [Next.prepend] using this

/-- No mark runs over a space. -/
theorem Mark.infix_spaces {m : Mark} (h : m.text <:+: ' ' :: (w ++ ' ' :: y)) :
    m.text <:+: w ∨ m.text <:+: y := by
  have behind : ∀ {x : List Char}, m.text <:+: ' ' :: x → m.text <:+: x := by
    intro x hx
    rcases List.infix_cons_iff.mp hx with hp | hi
    · cases m <;> simp [Mark.text] at hp
    · exact hi
  exact (Mark.infix_append (by simp) (behind h)).imp_right behind

/-- An insertion closes nothing that stands in front. -/
def Harmless (ts : List Token) (g w : List Char) : Prop :=
  ∀ us t vs, ts = us ++ t :: vs → ∀ m : Mark, m.Awaited (t.text ++ (Token.spelled vs ++ g)) →
    ¬ m.text <:+: w

/-- Where no token starts like an opening, nothing is left open. -/
theorem harmless_of_starts
    (h : ∀ t ∈ ts, (t.text.head?.any fun c => !(['/', 'r', 'b'].contains c)) = true)
    (g w : List Char) : Harmless ts g w := by
  rintro us t vs rfl m ⟨o, ho, z, heq, -⟩
  have hhead := h t (by simp)
  obtain ⟨c, r, htext⟩ : ∃ c r, t.text = c :: r := by
    cases htext : t.text with
    | nil => simp [htext] at hhead
    | cons c r => exact ⟨c, r, rfl⟩
  rw [htext] at heq hhead
  have hstart : ∀ o ∈ m.openings, ∃ d ∈ ['/', 'r', 'b'], ∃ o', o = d :: o' := by
    cases m <;> simp [Mark.openings]
  obtain ⟨d, hd, o', rfl⟩ := hstart o ho
  obtain rfl := (List.cons.inj heq).1
  exact absurd hd (by simpa using hhead)

theorem Harmless.mayFollow (h : Harmless ts g w) (hline : g = [] → EndsLines ts) :
    MayFollow ts g y (' ' :: (w ++ ' ' :: y)) where
  space := rfl
  line := hline
  closes us t vs heq m hawaited hm :=
    (Mark.infix_spaces hm).resolve_left (h us t vs heq m hawaited)

/-! ## Pieces of a text -/

/-- The piece `u` of the text `x ++ y`, with `w` inserted between `x` and `y`, is `u'`. -/
def Inserted (x y w : List Char) (u u' : String) : Prop :=
  ∃ p q, p <:+ x ∧ q <+: y ∧ u.toList = p ++ q ∧ u'.toList = p ++ ' ' :: (w ++ ' ' :: q)

/-- A piece is told by what stands around it. -/
theorem inserted_of_append {a c : List Char} {u u' : String} (h : x ++ y = a ++ (u.toList ++ c))
    (h' : x ++ ' ' :: (w ++ ' ' :: y) = a ++ (u'.toList ++ c)) (ha : a.length ≤ x.length)
    (hc : c.length ≤ y.length) : Inserted x y w u u' := by
  obtain ⟨p, rfl⟩ : a <+: x :=
    List.prefix_of_prefix_length_le ⟨u.toList ++ c, h.symm⟩ (List.prefix_append x y) ha
  obtain ⟨q, rfl⟩ : c <:+ y :=
    List.suffix_of_suffix_length_le ⟨a ++ u.toList, by rw [h, List.append_assoc]⟩
      (List.suffix_append (a ++ p) y) hc
  refine ⟨p, q, List.suffix_append a p, List.prefix_append q c, ?_, ?_⟩
  · rw [List.append_assoc, List.append_right_inj, ← List.append_assoc, List.append_left_inj] at h
    exact h.symm
  · rw [List.append_assoc, List.append_right_inj] at h'
    have heq : p ++ ' ' :: (w ++ ' ' :: q) ++ c = u'.toList ++ c := by simpa using h'
    exact (List.append_cancel_right heq).symm

/-- The text from a token on stands behind its gap. -/
theorem Scan.Takes.rest_eq {s s' : Scan} {o : Token} {us : List Token} (h : s.Takes (o :: us) s') :
    s.rest = o.gap ++ (s'.textFrom s.taken.length ++ s'.rest) := by
  rw [Scan.textFrom_takes h, h.2]
  simp [Token.written, Token.spelled_cons]

/-! ## Bodies -/

/-- A point behind the first token of a run and in front of its last one parts the run. -/
theorem Token.split_inside {A B C : List Token} {o : Token} (h : ts ++ t :: us = A ++ o :: (B ++ C))
    (hg : g <+: t.gap) (hlo : (Token.spelled A ++ o.gap).length < (Token.spelled ts ++ g).length)
    (hhi : (Token.spelled ts ++ g).length < (Token.spelled (A ++ o :: B)).length) :
    ∃ xs ys, ts = A ++ o :: xs ∧ B = xs ++ t :: ys ∧ us = ys ++ C := by
  have hgap := hg.length_le
  simp only [List.length_append] at hlo hhi
  -- The point lies behind the first token, so the part in front has that.
  rcases List.append_eq_append_iff.mp h with ⟨D, rfl, hD⟩ | ⟨D, rfl, hD⟩
  · exfalso
    rcases D with _ | ⟨d, D⟩
    · obtain ⟨rfl, -⟩ := List.cons.inj hD
      simp at hlo
      omega
    · obtain ⟨rfl, -⟩ := List.cons.inj hD
      simp [Token.spelled_append, Token.spelled_cons] at hlo
      omega
  rcases D with _ | ⟨d, xs⟩
  · exfalso
    obtain ⟨rfl, -⟩ := List.cons.inj hD
    simp at hlo
    omega
  obtain ⟨rfl, hBC⟩ := List.cons.inj hD
  -- The point lies in front of the end of `B`.
  rcases List.append_eq_append_iff.mp hBC with ⟨D, rfl, hC⟩ | ⟨D, rfl, hC⟩
  · exfalso
    simp only [Token.spelled_append, Token.spelled_cons, List.length_append] at hhi
    omega
  rcases D with _ | ⟨d, ys⟩
  · exfalso
    simp only [Token.spelled_append, Token.spelled_cons, Token.spelled_nil, List.length_append,
      List.length_nil] at hhi
    omega
  obtain ⟨rfl, hus⟩ := List.cons.inj hC
  exact ⟨xs, ys, rfl, rfl, hus⟩

namespace Grammar

open Reading

variable {s s' s₁ : Scan} {n m : Nat} {o : Token} {r : List Char} {bs xs ys : List Token}

/-- The tokens of a group. -/
theorem group_tokens (h : (group n).run s = .ok ((), s')) :
    s'.expected = Expected.anything ∧ ∃ o r bs c, s.next = .token o r ∧
      s.Takes (o :: (bs ++ [c])) s' ∧ Scanned r (bs ++ [c]) s'.rest ∧
      closer? o.kind = some c.kind ∧ Nested bs := by
  obtain ⟨he, o, r, ts, hnext, htaken, hscan, -⟩ := (group_trees_again n).1 s s' h
  obtain ⟨o', bs, c, htakes, hclose, hnested⟩ := (group_trees_nested n).1 s s' h
  have heq : ts.reverse ++ o :: s.taken = (o' :: (bs ++ [c])).reverse ++ s.taken :=
    htaken.symm.trans htakes.1
  have heq' : (o :: ts).reverse = (o' :: (bs ++ [c])).reverse := by
    rw [List.reverse_cons]
    exact List.append_cancel_right (by simpa using heq)
  obtain ⟨rfl, rfl⟩ := List.cons.inj (List.reverse_injective heq')
  exact ⟨he, o, r, bs, c, hnext, htakes, hscan, hclose, hnested⟩

/-- A body is one token or a group. -/
theorem methodBody_takes {body : String} (h : (methodBody n).run s = .ok (body, s')) :
    ∃ o bs, s.Takes (o :: bs) s' ∧ body = String.ofList (s'.textFrom s.taken.length) ∧
      (bs = [] ∨ s.next.kind = .lbrace ∧ (group n).run s = .ok ((), s')) := by
  rw [methodBody, run_peek_bind] at h
  split at h
  · rename_i hk
    cases hnext : s.next with
    | token t r =>
      simp only [shift, Reading.run, hnext, Except.ok.injEq, Prod.mk.injEq] at h
      obtain ⟨rfl, rfl⟩ := h
      have htakes := Scan.Takes.token hnext Expected.afterItem
      refine ⟨t, [], htakes, ?_, .inl rfl⟩
      rw [Scan.textFrom_takes htakes]
      simp [Token.written]
    | ended | unknown => simp [shift, Reading.run, hnext] at h
  · rename_i hk
    rw [run_mark_bind] at h
    obtain ⟨⟨⟩, s₁, hgroup, h⟩ := run_bind_eq_ok.mp h
    obtain ⟨rfl, rfl⟩ : String.ofList (s₁.textFrom s.taken.length) = body ∧ s₁ = s' := by
      simpa [textFrom, Reading.run] using h
    obtain ⟨-, o, r, bs, c, -, htakes, -⟩ := group_tokens hgroup
    exact ⟨o, bs ++ [c], htakes, rfl, .inr ⟨hk, hgroup⟩⟩
  · simp at h

theorem methodBody_of_group (hk : s.next.kind = .lbrace) (h : (group n).run s = .ok ((), s')) :
    (methodBody n).run s = .ok (String.ofList (s'.textFrom s.taken.length), s') := by
  rw [methodBody, run_peek_bind, hk]
  simp only [run_mark_bind]
  exact run_bind_eq_ok.mpr ⟨(), s', h, rfl⟩

/-- Brackets match as they did with a token between others that is none. -/
theorem nested_insert {vs : List Token}
    (hvs : vs = [] ∨ ∃ u, vs = [u] ∧ admits separators u.kind = true) (h : Nested (xs ++ ys)) :
    Nested (xs ++ (vs ++ ys)) := by
  rcases hvs with rfl | ⟨u, rfl, hu⟩
  · exact h
  · exact h.insert (.token hu)

/-- A group is read again with an insertion between two of its tokens. -/
theorem group_insert {c : Token} (hw : Inert w) (hnext : s.next = .token o r)
    (hscan : Scanned r (bs ++ [c]) z) (hclose : closer? o.kind = some c.kind) (hnested : Nested bs)
    (hsplit : bs ++ [c] = xs ++ t :: ys) (hr : r = Token.spelled xs ++ (g ++ y))
    (hg : Gap Expected.anything g) (hmay : MayFollow (o :: xs) g y (' ' :: (w ++ ' ' :: y)))
    (hm : bs.length + 2 < m) :
    ∃ us : List Token, (group m).run (s.before (o :: xs) (g ++ ' ' :: (w ++ ' ' :: y))) =
      .ok ((), ⟨us.reverse ++ o :: s.taken, z, Expected.anything⟩) := by
  rw [hsplit] at hscan
  obtain ⟨y₀, hxs, hys⟩ := hscan.of_append
  obtain rfl : y₀ = g ++ y := List.append_cancel_left (hxs.spelled.symm.trans hr)
  have hway : s.Way (o :: xs) ⟨xs.reverse ++ o :: s.taken, g ++ y, Expected.anything⟩ :=
    .cons hnext (Scan.Way.of_scanned hxs _)
  have hfront : (s.before (o :: xs) (g ++ ' ' :: (w ++ ' ' :: y))).next =
      .token o (Token.spelled xs ++ (g ++ ' ' :: (w ++ ' ' :: y))) :=
    hway.next_before rfl hg hmay
  have hxs' := hxs.before hg hmay.of_cons
  obtain ⟨vs, t', hvs, hkind, hys'⟩ := hys.insert hw hg
  have hlen : vs.length ≤ 1 := by
    rcases hvs with rfl | ⟨u, rfl, -⟩ <;> simp
  -- The last token of the group is the token behind the insertion, or one behind that.
  obtain ⟨bs', c', hsplit', hc, hnested', hlen'⟩ : ∃ bs' c', xs ++ (vs ++ t' :: ys) = bs' ++ [c'] ∧
      c'.kind = c.kind ∧ Nested bs' ∧ bs'.length ≤ bs.length + 1 := by
    rcases List.eq_nil_or_concat ys with rfl | ⟨ys₀, c₀, rfl⟩
    · obtain ⟨rfl, heq⟩ := List.append_inj' hsplit rfl
      obtain rfl := (List.cons.inj heq).1
      refine ⟨bs ++ vs, t', by simp, hkind, ?_, by simp; omega⟩
      simpa using nested_insert hvs (show Nested (bs ++ []) by simpa using hnested)
    · have heq : bs ++ [c] = (xs ++ t :: ys₀) ++ [c₀] := by simpa using hsplit
      obtain ⟨rfl, hc₀⟩ := List.append_inj' heq rfl
      obtain rfl := (List.cons.inj hc₀).1
      refine ⟨xs ++ (vs ++ t' :: ys₀), c, by simp, rfl, ?_, by simp; omega⟩
      exact nested_insert hvs (hnested.of_kinds (by simp [hkind]))
  have hscan' := hxs'.append hys'
  rw [hsplit'] at hscan'
  exact ⟨bs' ++ [c'], group_of_nested hfront hscan' (by rw [hclose, hc]) hnested' (by omega)⟩

/-- A body is read again with an insertion between two of its tokens. -/
theorem methodBody_insert {body : String} (hw : Inert w) (h : (methodBody n).run s = .ok (body, s'))
    (htakes : s.Takes (o :: (xs ++ t :: ys)) s')
    (hrest : s.rest = o.gap ++ (o.text ++ (Token.spelled xs ++ (g ++ y))))
    (hg : Gap Expected.anything g) (hmay : MayFollow (o :: xs) g y (' ' :: (w ++ ' ' :: y)))
    (hn : xs.length + ys.length + 2 < n) : s'.expected = Expected.anything ∧
      s.Way (o :: xs) ⟨xs.reverse ++ o :: s.taken, g ++ y, Expected.anything⟩ ∧
      ∃ body' us, (methodBody n).run (s.before (o :: xs) (g ++ ' ' :: (w ++ ' ' :: y))) =
          .ok (body', ⟨List.reverse us ++ o :: s.taken, s'.rest, Expected.anything⟩) ∧
        (s.before (o :: xs) (g ++ ' ' :: (w ++ ' ' :: y))).rest = o.gap ++
        (body'.toList ++ s'.rest) := by
  obtain ⟨o', bs, htakes', -, hcase⟩ := methodBody_takes h
  obtain ⟨rfl, rfl⟩ := List.cons.inj (htakes.unique htakes')
  obtain ⟨hk, hgroup⟩ := hcase.resolve_left (by simp)
  obtain ⟨he, o₁, r, bs, c, hnext, htakes₁, hscan, hclose, hnested⟩ := group_tokens hgroup
  obtain ⟨rfl, hsplit⟩ := List.cons.inj (htakes.unique htakes₁)
  replace hsplit := hsplit.symm
  have hr : r = Token.spelled xs ++ (g ++ y) := by
    have := (Next.of_eq_token hnext).1
    rw [hrest, List.append_assoc, List.append_right_inj, List.append_right_inj] at this
    exact this.symm
  obtain ⟨z, hxs, -⟩ := Scanned.of_append (hsplit ▸ hscan)
  obtain rfl : z = g ++ y := List.append_cancel_left (hxs.spelled.symm.trans hr)
  have hway : s.Way (o :: xs) ⟨xs.reverse ++ o :: s.taken, g ++ y, Expected.anything⟩ :=
    .cons hnext (.of_scanned hxs _)
  have hlen : bs.length + 1 = xs.length + (ys.length + 1) := by
    simpa using congrArg List.length hsplit
  -- The body is a group, and this is read again whatever it holds.
  obtain ⟨us, hus⟩ := group_insert hw hnext hscan hclose hnested hsplit hr hg hmay
    (m := n) (by omega)
  have hk' : (s.before (o :: xs) (g ++ ' ' :: (w ++ ' ' :: y))).next.kind = .lbrace := by
    rw [kind_of_token (hway.next_before rfl hg hmay), ← kind_of_token hnext, hk]
  refine ⟨he, hway, _, us, methodBody_of_group hk' hus, ?_⟩
  obtain ⟨new, hnew, -⟩ := takes_of_run (group n) (s.before (o :: xs) (g ++ ' ' :: (w ++ ' ' :: y)))
  have hnew := hnew _ _ hus
  obtain rfl : new = o :: us := by
    have := hnew.1
    simp only [Scan.before] at this
    refine List.reverse_injective ((List.append_left_inj s.taken).mp ?_)
    rw [← this]
    simp
  rw [String.toList_ofList]
  exact hnew.rest_eq

end Grammar

end ShadowImpl
