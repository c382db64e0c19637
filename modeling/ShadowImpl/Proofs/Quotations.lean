import ShadowImpl.Proofs.Chunks
import ShadowImpl.Proofs.Endings
import ShadowImpl.Proofs.Expectations
import ShadowImpl.Proofs.Rules

/-!
# Quoted text

A generated block quotes pieces of the block that it is made from: attributes, whole items, the head
and the body of a method. A piece that has been read is read again where it is quoted, whatever
stands in front of it there and behind it, as long as nothing is left open in it.
-/

namespace ShadowImpl

open Filter Lexeme Recogniser

variable {e e' : Expectation} {g u x y z : List Char} {s s' s₁ : Scan} {t : Token} {r : List Char}

/-- A text that may stand behind any other: it starts with a break that is no part of
a longer symbol. -/
def Parting (z : List Char) : Prop :=
  ∀ c ∈ z.head?, isBreak c = true ∧ c ≠ ':' ∧ c ≠ '>'

theorem Parting.parts (h : Parting z) (x : List Char) : Parts x z :=
  fun c hc => ⟨(h c hc).1, fun hcolon => absurd hcolon (h c hc).2.1,
    fun hgt => absurd hgt (h c hc).2.2⟩

theorem Parting.breaks (h : Parting z) : Breaks z :=
  fun c hc => (h c hc).1

/-- All that a text in front of `u` can leave open is closed in `u`. -/
def Shuts (u : List Char) : Prop :=
  ∀ m : Mark, m.text <:+: u

theorem Shuts.quiet (h : Shuts u) (z : List Char) : Quiet u z :=
  fun m _ => h m

theorem Shuts.behind (h : Shuts u) (x : List Char) : Shuts (x ++ u) :=
  fun m => (h m).trans (List.suffix_append x u).isInfix

theorem Shuts.of_suffix (h : Shuts u) (hu : u <:+ y) : Shuts y :=
  fun m => (h m).trans hu.isInfix

/-- In front of a text that shuts all, a token is found as it is in front of another one. -/
theorem Next.of_replaced (h : Next.of e (x ++ u) = .token t (y ++ u)) (hu : Shuts u) (hy : Lexes y)
    (hz : Parting z) (hline : y = [] → ['/', '/'] <+: t.text → z.head? = some '\n') :
    Next.of e (x ++ z) = .token t (y ++ z) := by
  refine Next.of_append (Next.of_cut h) hy (hz.parts x) (fun hnil ht => .inr (hline hnil ht)) ?_
  intro m he hawaited
  obtain ⟨-, v, -, hv⟩ := Next.of_eq_token h
  rw [← List.append_assoc] at hv
  exact absurd (hu m) (not_infix_of_awaited hv (by simp) he hawaited)

/-! ## The first token of a piece -/

/-- Where the class of the token is expected, its gap left out. -/
theorem Next.gapless (h : Next.of e x = .token t y) :
    Next.of e (t.text ++ y) = .token ⟨t.kind, [], t.text⟩ y := by
  have hx := (Next.of_eq_token h).1
  have happ := (gap_of_token h).of_append (t.text ++ y)
  rw [← List.append_assoc, ← hx, h] at happ
  cases hn : Next.of e (t.text ++ y) with
  | token u r =>
    rw [hn, Next.prepend] at happ
    obtain ⟨ht, hr⟩ := Next.token.inj happ
    obtain ⟨hkind, hgap, htext⟩ := Token.mk.inj ht
    have hnil : u.gap = [] := by simpa using hgap
    rw [hkind, hr, htext, ← hnil]
  | ended | unknown => simp [hn, Next.prepend] at happ

/-- A token that is found where `e` is expected is found where `e'` is. -/
def Token.Moves (t : Token) (e e' : Expectation) : Prop :=
  ∀ y, Next.of e (t.text ++ y) = .token ⟨t.kind, [], t.text⟩ y →
    Next.of e' (t.text ++ y) = .token ⟨t.kind, [], t.text⟩ y

theorem Token.moves_refl (t : Token) (e : Expectation) : t.Moves e e :=
  fun _ => id

theorem Token.moves_docComment (ht : t.kind = .docComment) (he : .docComment ∈ e') :
    t.Moves e e' := by
  intro y h
  have hdoc := (docComment_of_token h ht).1
  rw [ht]
  exact of_docComment_text he hdoc

theorem Token.moves_symbol (hspelling : t.kind.spelling ≠ []) (he : finds e' t.kind = true) :
    t.Moves e e' := by
  intro y h
  have htext : t.text = t.kind.spelling :=
    Next.text_of_token (t := ⟨t.kind, [], t.text⟩) h (Terminal.spelling_ne_nil_iff.mp hspelling)
  rw [htext]
  exact of_symbol_front he

/-- The keywords that a method may start with. -/
def methodKeywords : List Terminal :=
  [.kwPub, .kwConst, .kwAsync, .kwUnsafe, .kwExtern, .kwFn]

/-- Nothing that is tried before the names starts like one of these keywords. -/
theorem Token.moves_keyword (ht : t.kind ∈ methodKeywords) (hname : .ident ∈ e) (he : t.kind ∈ e')
    (hname' : .ident ∈ e') : t.Moves e e' := by
  intro y h
  have hall : ∀ κ ∈ methodKeywords, κ ∈ Terminal.keywords ∧ κ ≠ .ident ∧
      ∃ c w, κ.spelling = c :: w ∧ ∀ l ∈ before (.terminal .ident), l.starts c = false := by
    intro κ hκ
    refine ⟨?_, ?_, κ.spelling.head!, κ.spelling.tail, ?_⟩ <;> revert κ <;> decide
  obtain ⟨hkeyword, hne, c, w, hspelling, hstarts⟩ := hall _ ht
  have htext : t.text = c :: w := by
    rw [Next.text_of_token h (List.mem_append_left _ hkeyword), hspelling]
  obtain ⟨-, v, hkind, hv⟩ := Next.of_eq_token h
  -- Where a name may stand, a keyword is found as one first, and settled then.
  obtain rfl : v = .ident := by
    by_contra hv'
    have htried := (first_eq_some_iff.mp hv).2.1
    rw [Terminal.settle, if_neg hv'] at hkind
    simp [tried, hname, ← hkind, hkeyword] at htried
  obtain ⟨hmem, -, hrec, -⟩ := first_eq_some_iff.mp hv
  have hfirst : first e' (t.text ++ y) = some (.terminal .ident, t.text.length) := by
    refine first_eq_some_iff.mpr ⟨hmem, by simp [tried, hname', Terminal.keywords], hrec, ?_⟩
    intro l hl _
    by_contra hsome
    obtain ⟨k, hk⟩ := Option.ne_none_iff_exists'.mp hsome
    rw [htext, List.cons_append] at hk
    exact absurd (starts_of_recognise hk) (by simp [hstarts l hl])
  rw [Next.of_token hfirst, List.take_left, List.drop_left, Terminal.settle, if_pos rfl]
  have hof := ofName_spelling hkeyword he
  rw [hspelling, ← htext] at hof
  rw [hof]

/-- What is left on the way to `s₁` starts with a lexeme, up to what is left there. -/
theorem Scan.Reaches.lexes_front (h : s.Reaches s₁) : ∃ y, s.rest = y ++ s₁.rest ∧ Lexes y := by
  obtain ⟨new, htakes⟩ := h.takes
  refine ⟨Token.spelled new, htakes.2, ?_⟩
  cases h with
  | refl =>
    have hnil : Token.spelled new = [] := by simpa using htakes.2
    exact hnil ▸ .inl rfl
  | @step _ _ t r e hnext hs =>
    obtain ⟨new', htakes'⟩ := hs.takes
    have hrest : r = Token.spelled new' ++ s₁.rest := htakes'.2
    rw [Scan.next, htakes.2, hrest] at hnext
    exact Next.lexes_of_token (Next.of_cut hnext)

/-- Where nothing is left in between, nothing is taken. -/
theorem Scan.Reaches.eq_of_rest (h : s.Reaches s₁) (hrest : s.rest = s₁.rest) : s = s₁ := by
  cases h with
  | refl => rfl
  | step hnext hs =>
    obtain ⟨new, htakes⟩ := hs.takes
    have hlen := congrArg List.length ((Next.of_eq_token hnext).1.symm.trans hrest)
    have hnew := congrArg List.length htakes.2
    have hpos := List.length_pos_iff.mpr (Next.text_ne_nil_of_token hnext)
    simp only [List.length_append] at hlen hnew
    omega

/-- The text from the next token on starts with it. -/
theorem Scan.textFrom_next (hnext : s.next = .token t r)
    (hreach : Scan.Reaches ⟨t :: s.taken, r, e⟩ s₁) : ∃ us, r = Token.spelled us ++ s₁.rest ∧
    s₁.textFrom s.taken.length = t.text ++ Token.spelled us := by
  obtain ⟨us, htakes⟩ := hreach.takes
  exact ⟨us, htakes.2, Scan.textFrom_of_takes ((Scan.Takes.token hnext e).trans htakes)⟩

/-- Less is left once a token has been taken. -/
theorem Scan.Reaches.rest_lt (h : s.Reaches s₁) (hlt : s.taken.length < s₁.taken.length) :
    s₁.rest.length < s.rest.length := by
  refine Nat.lt_of_le_of_ne h.rest_suffix.length_le fun hlen => ?_
  rw [h.eq_of_rest (h.rest_suffix.eq_of_length hlen).symm] at hlt
  exact Nat.lt_irrefl _ hlt

/-- What is read up to `s₁` may be quoted in front of `z`. -/
structure Quotable (s₁ : Scan) (z : List Char) : Prop where
  shuts : Shuts s₁.rest
  parting : Parting z
  line : z.head? = some '\n' ∨ ∀ t ∈ s₁.taken.head?, ¬ ['/', '/'] <+: t.text

theorem Quotable.next_token (hz : Quotable s₁ z) (hnext : Next.of e x = .token t r)
    (hreach : Scan.Reaches ⟨t :: s.taken, r, e'⟩ s₁) (hx : x = y ++ s₁.rest) :
    ∃ w, r = w ++ s₁.rest ∧ Next.of e (y ++ z) = .token t (w ++ z) := by
  obtain ⟨w, hw, hlexes⟩ := hreach.lexes_front
  obtain rfl : r = w ++ s₁.rest := hw
  subst hx
  refine ⟨w, rfl, Next.of_replaced hnext hz.shuts hlexes hz.parting fun hnil hslashes => ?_⟩
  refine hz.line.resolve_right fun hlast => hlast t ?_ hslashes
  rw [← hreach.eq_of_rest (by simp [hnil])]
  rfl

namespace Reading

/-! ## The same pace -/

/-- The same token stands next in both, in front of `u` in the one and of `z` in the other. -/
def Quoting (u z : List Char) (s s' : Scan) : Prop :=
  ∃ t t' x, s.next = .token t (x ++ u) ∧ s'.next = .token t' (x ++ z) ∧ t.kind = t'.kind ∧
  t.text = t'.text

/-- A scan of a piece in front of `u`, and one of the piece in front of `z`. -/
abbrev Quoted (u z : List Char) (base base' : List Token) : Scan → Scan → Prop :=
  Paced (fun _ y y' => ∃ x, y = x ++ u ∧ y' = x ++ z) (Quoting u z) base base'

variable {base base' : List Token} {ends : List Terminal}

/-- Where the piece ends in the one place it does in the other. -/
theorem Quoted.rest_eq (h : Quoted s₁.rest z base base' s₁ s') :
    s'.rest = z ∧ s'.expected = s₁.expected := by
  cases h with
  | start _ h₀ =>
    obtain ⟨t, t', x, hnext, -⟩ := h₀
    have hlen := congrArg List.length (Next.of_eq_token hnext).1
    have hpos := List.length_pos_iff.mpr (Next.text_ne_nil_of_token hnext)
    simp only [List.length_append] at hlen
    omega
  | going _ _ he hC =>
    obtain ⟨x, hx, hrest⟩ := hC
    have hnil : x = [] := by simpa using hx
    rw [hrest, hnil]
    exact ⟨rfl, he.symm⟩

theorem quoted_lockstepTo (hz : Quotable s₁ z) (hend : s₁.next.kind ∈ ends)
    (hend' : (Next.of s₁.expected z).kind ∈ ends) (base base' : List Token) :
    LockstepTo Grammar.anyTable (Offset base.length base'.length)
      (Quoted s₁.rest z base base') ends s₁ where
  kind := by
    rintro s s' h ⟨t, r, e, hnext, hreach⟩
    cases h with
    | start _ h₀ =>
      obtain ⟨u, u', x, hu, hu', hkind, -⟩ := h₀
      rw [kind_of_token hu, kind_of_token hu', hkind]
    | going _ _ he hC =>
      obtain ⟨x, hx, hrest⟩ := hC
      obtain ⟨w, -, hnext'⟩ := hz.next_token hnext hreach hx
      rw [kind_of_token hnext, Scan.next, ← he, hrest, hnext', Next.kind]
  take := by
    rintro s s' t r e h hnext - hreach
    -- Only the first token can have another gap.
    cases h with
    | start hb h₀ =>
      obtain ⟨u, u', x, hu, hu', -, htext⟩ := h₀
      obtain ⟨rfl, rfl⟩ := Next.token.inj (hnext.symm.trans hu)
      refine ⟨u', _, hu', htext.symm, .going ⟨?_, ?_, .single htext⟩ (by simp) rfl ⟨x, rfl, rfl⟩⟩
      · simpa using hb.left
      · simpa using hb.right
    | @going ts ts' hb hts he hC =>
      obtain ⟨x, hx, hrest⟩ := hC
      obtain ⟨w, hw, hnext'⟩ := hz.next_token hnext hreach hx
      refine ⟨t, w ++ z, ?_, rfl, .going ⟨?_, ?_, hb.same.cons hts t⟩ (by simp) rfl ⟨w, hw, rfl⟩⟩
      · rw [Scan.next, ← he, hrest, hnext']
      · simpa using hb.left
      · simpa using hb.right
  count h := by
    obtain ⟨ts, ts', h⟩ := h.behind
    exact h.offset
  text h hij := by
    obtain ⟨ts, ts', h⟩ := h.behind
    exact h.textFrom_eq hij
  ended := hend
  stopped h := by
    obtain ⟨hrest, he⟩ := h.rest_eq
    rwa [Scan.next, hrest, he]

/-! ## Readings of quoted text -/

variable {α β : Type} {a : α} {r : Reading α} {r' : Reading β} {es : List Expectation}
  {certain : Bool} {w : List Char}

/-- The reading takes the front of `x` for something of which `P` holds; then `z` is left and `e'`
is expected of it. -/
def ReadsAs (r : Reading α) (P : α → Prop) (e : Expectation) (x : List Char) (e' : Expectation)
    (z : List Char) : Prop :=
  ∀ taken, ∃ a taken', P a ∧ r.run ⟨taken, x, e⟩ = .ok (a, ⟨taken', z, e'⟩)

namespace ReadsAs

variable {γ : Type} {e₁ : Expectation} {P P' : α → Prop} {Q : γ → Prop} {f : α → Reading γ}

theorem mono (h : r.ReadsAs P e x e' z) (hP : ∀ a, P a → P' a) : r.ReadsAs P' e x e' z := by
  intro taken
  obtain ⟨a, taken', ha, hrun⟩ := h taken
  exact ⟨a, taken', hP a ha, hrun⟩

theorem pure (h : P a) : (Pure.pure a : Reading α).ReadsAs P e x e x :=
  fun taken => ⟨a, taken, h, rfl⟩

theorem bind (h : r.ReadsAs P e x e₁ y) (hf : ∀ a, P a → (f a).ReadsAs Q e₁ y e' z) :
    (r >>= f).ReadsAs Q e x e' z := by
  intro taken
  obtain ⟨a, taken₁, ha, hrun⟩ := h taken
  obtain ⟨c, taken₂, hc, hrun'⟩ := hf a ha taken₁
  exact ⟨c, taken₂, hc, by rw [run_bind_of_ok hrun, hrun']⟩

theorem map {g : α → γ} (h : r.ReadsAs P e x e' z) (hg : ∀ a, P a → Q (g a)) :
    (r >>= fun a => Pure.pure (g a)).ReadsAs Q e x e' z :=
  h.bind fun a ha => pure (hg a ha)

theorem mark {f : Nat → Reading γ} (h : ∀ i, (f i).ReadsAs Q e x e' z) :
    (Reading.mark >>= f).ReadsAs Q e x e' z := by
  intro taken
  obtain ⟨c, taken', hc, hrun⟩ := h taken.length taken
  exact ⟨c, taken', hc, by rw [run_mark_bind, hrun]⟩

theorem textFrom {i : Nat} {f : String → Reading γ} (h : ∀ w, (f w).ReadsAs Q e x e' z) :
    (Reading.textFrom i >>= f).ReadsAs Q e x e' z := by
  intro taken
  obtain ⟨c, taken', hc, hrun⟩ := h (String.ofList (Scan.textFrom ⟨taken, x, e⟩ i)) taken
  exact ⟨c, taken', hc, by rw [run_textFrom_bind, hrun]⟩

theorem peek {κ : Terminal} {f : Terminal → Reading γ} (hκ : (Next.of e x).kind = κ)
    (h : (f κ).ReadsAs Q e x e' z) : (Reading.peek >>= f).ReadsAs Q e x e' z := by
  intro taken
  obtain ⟨c, taken', hc, hrun⟩ := h taken
  refine ⟨c, taken', hc, ?_⟩
  rw [run_peek_bind, Scan.next, hκ, hrun]

theorem shift {f : String → Reading γ} (ht : Next.of e x = .token t y)
    (h : (f (String.ofList t.text)).ReadsAs Q e₁ y e' z) :
    (Reading.shift e₁ >>= f).ReadsAs Q e x e' z := by
  intro taken
  obtain ⟨c, taken', hc, hrun⟩ := h (t :: taken)
  exact ⟨c, taken', hc, run_shift_bind_eq_ok.mpr ⟨t, y, ht, hrun⟩⟩

theorem token {κ : Terminal} {w : List Char} {f : String → Reading γ}
    (ht : Next.of e x = .token ⟨κ, g, w⟩ y) (h : (f (String.ofList w)).ReadsAs Q e₁ y e' z) :
    (Reading.token κ e₁ >>= f).ReadsAs Q e x e' z := by
  intro taken
  obtain ⟨c, taken', hc, hrun⟩ := h (⟨κ, g, w⟩ :: taken)
  exact ⟨c, taken', hc, run_token_bind_eq_ok.mpr ⟨_, y, ht, rfl, hrun⟩⟩

theorem present {κ : Terminal} {w : List Char} {f : Bool → Reading γ}
    (ht : Next.of e x = .token ⟨κ, g, w⟩ y) (h : (f true).ReadsAs Q e₁ y e' z) :
    (Reading.optional κ e₁ >>= f).ReadsAs Q e x e' z := by
  intro taken
  obtain ⟨c, taken', hc, hrun⟩ := h (⟨κ, g, w⟩ :: taken)
  exact ⟨c, taken', hc, run_optional_bind_eq_ok.mpr (.inl ⟨_, y, ht, rfl, hrun⟩)⟩

theorem absent {κ : Terminal} {f : Bool → Reading γ} (hκ : (Next.of e x).kind ≠ κ)
    (h : (f false).ReadsAs Q e x e' z) : (Reading.optional κ e₁ >>= f).ReadsAs Q e x e' z := by
  intro taken
  obtain ⟨c, taken', hc, hrun⟩ := h taken
  exact ⟨c, taken', hc, run_optional_bind_eq_ok.mpr (.inr ⟨hκ, hrun⟩)⟩

end ReadsAs

theorem Reads.readsAs (h : r.Reads e x a e' z) : r.ReadsAs (· = a) e x e' z := by
  intro taken
  obtain ⟨taken', hrun⟩ := h taken
  exact ⟨a, taken', rfl, hrun⟩

/-- What is known of the value that is read goes on with. -/
theorem Reads.bind_readsAs {γ : Type} {e₁ : Expectation} {Q : γ → Prop} {f : α → Reading γ}
    (h : r.Reads e x a e₁ y) (hf : (f a).ReadsAs Q e₁ y e' z) : (r >>= f).ReadsAs Q e x e' z := by
  refine h.readsAs.bind ?_
  rintro _ rfl
  exact hf

/-- A piece is read where it is quoted if its first token is found there. -/
theorem readsAs_of_quoted {R : α → β → Prop} {q : List Char} (hrun : r.run s = .ok (a, s₁))
    (halike : ∀ N, Alike Grammar.anyTable N
      (fun _ _ a b => R a b) s.rest.length s.expected none r r')
    (hc : Closes es ends certain r') (hz : Quotable s₁ z) (hend : s₁.next.kind ∈ ends)
    (hend' : (Next.of s₁.expected z).kind ∈ ends) (hnext : s.next = .token t (x ++ s₁.rest))
    (hquote : Next.of e q = .token ⟨t.kind, g, t.text⟩ (x ++ z)) :
    r'.ReadsAs (R a) e q s₁.expected z := by
  intro taken
  have hstart : Quoted s₁.rest z s.taken taken s ⟨taken, q, e⟩ :=
    .start ⟨rfl, rfl, .nil⟩ ⟨t, _, x, hnext, hquote, rfl, rfl⟩
  obtain ⟨b, s', -, hrun', hR, hquoted⟩ := follow_to (halike _)
    (quoted_lockstepTo hz hend hend' _ _) hc hstart rfl (by simp) (Nat.le_refl _) hrun
  obtain ⟨hrest, he⟩ := hquoted.rest_eq
  exact ⟨b, s'.taken, hR, by rw [hrun', ← hrest, ← he]⟩

/-- The text of a piece is read wherever its first token is found, behind layout and in front of a
text that may stand there. -/
theorem readsAs_quote {R : α → β → Prop} (hrun : r.run s = .ok (a, s₁))
    (hlt : s.taken.length < s₁.taken.length)
    (halike : ∀ N, Alike Grammar.anyTable N
      (fun _ _ a b => R a b) s.rest.length s.expected none r r')
    (hc : Closes es ends certain r') (hz : Quotable s₁ z) (hend : s₁.next.kind ∈ ends)
    (hend' : (Next.of s₁.expected z).kind ∈ ends)
    (hmoves : ∀ t rest, s.next = .token t rest → t.Moves s.expected e) (hg : IsLayout g) :
    (Next.of e (g ++ (s₁.textFrom s.taken.length ++ z))).kind = s.next.kind ∧
      r'.ReadsAs (R a) e (g ++ (s₁.textFrom s.taken.length ++ z)) s₁.expected z := by
  cases Scan.reaches_of_run hrun with
  | refl => exact absurd hlt (Nat.lt_irrefl _)
  | @step _ _ t rest e₁ hnext hreach =>
    obtain ⟨us, rfl, htext⟩ := Scan.textFrom_next hnext hreach
    have hx : s.rest = t.gap ++ (t.text ++ Token.spelled us) ++ s₁.rest := by
      rw [(Next.of_eq_token hnext).1]
      simp
    obtain ⟨w, hw, hfound⟩ := hz.next_token hnext hreach hx
    obtain rfl : Token.spelled us = w := List.append_cancel_right hw
    -- The first token is found in the other place, and all others where they were.
    have hmoved := hmoves t _ hnext _ (Next.gapless hfound)
    have hquote : Next.of e (g ++ (s₁.textFrom s.taken.length ++ z)) =
        .token ⟨t.kind, g, t.text⟩ (Token.spelled us ++ z) := by
      rw [htext, List.append_assoc]
      exact (gap_of_isLayout hg).of_token hmoved
    refine ⟨?_, readsAs_of_quoted hrun halike hc hz hend hend' hnext hquote⟩
    rw [hquote, kind_of_token hnext, Next.kind]

/-- A reading that has taken a token ends with one, behind which what is expected may be. -/
theorem Obeys.exists_last {r : Reading α} (h : r.Obeys none) (hrun : r.run s = .ok (a, s₁))
    (hlt : s.taken.length < s₁.taken.length) :
    ∃ t ts, s₁.taken = t :: ts ∧ Grammar.Allows t.kind s₁.expected ∧
      ∃ e x y, Next.of e x = .token t y := by
  have hkeeps := h.keeps (P := fun s' => s.taken.length < s'.taken.length → ∃ t ts,
      s'.taken = t :: ts ∧
    Grammar.Allows t.kind s'.expected ∧ ∃ e x y, Next.of e x = .token t y)
    (fun {s' t rest e} _ hnext ht _ => ⟨t, s'.taken, rfl, ht, _, _, _, hnext⟩) (by simp)
    (fun hlt => absurd hlt (Nat.lt_irrefl _)) hrun
  exact hkeeps hlt

/-- A reading ends with no line comment where none may stand. -/
theorem Obeys.not_slashes {r : Reading α} (h : r.Obeys none) (hrun : r.run s = .ok (a, s₁))
    (hlt : s.taken.length < s₁.taken.length)
    (he : ∀ κ ∈ [Terminal.docComment, .innerDoc], ¬ Grammar.Allows κ s₁.expected) :
    ∀ t ∈ s₁.taken.head?, ¬ ['/', '/'] <+: t.text := by
  obtain ⟨t, ts, htaken, ht, e, x, y, hnext⟩ := h.exists_last hrun hlt
  rintro u hu hslashes
  obtain rfl : t = u := by simpa [htaken] using hu
  exact he _ (isLineDoc_of_token hnext hslashes).1 ht

/-- Wherever the text `w` is quoted, behind layout at one of `places` and in front of a text that
fits, the reading takes it for something of which `P` holds. It starts with one of `starts`, and
`e'` is expected behind it. -/
def Quotes (r : Nat → Reading α) (P : α → Prop) (starts : List Terminal)
    (places : Expectation → Prop) (w : List Char) (e' : Expectation)
    (fits : List Char → Prop) : Prop :=
  ∀ e, places e → ∀ g, IsLayout g → ∀ z, fits z →
    (Next.of e (g ++ (w ++ z))).kind ∈ starts ∧ ∀ᶠ n in atTop,
      (r n).ReadsAs P e (g ++ (w ++ z)) e' z

/-- What has been read is a quotation, if its first token is found in these places and it ends alike
in front of the texts that fit. -/
theorem quotes_of_run {R : α → β → Prop} {r' : Nat → Reading β} {starts : List Terminal}
    {places : Expectation → Prop} {fits : List Char → Prop} (hrun : r.run s = .ok (a, s₁))
    (hlt : s.taken.length < s₁.taken.length)
    (halike : ∀ᶠ n in atTop, ∀ N, Alike Grammar.anyTable N
      (fun _ _ a b => R a b) s.rest.length s.expected none r (r' n))
    (hshuts : Shuts s₁.rest) (hfits : ∀ z, fits z → Parting z ∧
      (z.head? = some '\n' ∨ ∀ t ∈ s₁.taken.head?, ¬ ['/', '/'] <+: t.text) ∧
      ∃ es ends certain, (∀ n, Closes es ends certain (r' n)) ∧ s₁.next.kind ∈ ends ∧
        (Next.of s₁.expected z).kind ∈ ends)
    (hstarts : s.next.kind ∈ starts)
    (hmoves : ∀ e, places e → ∀ t rest, s.next = .token t rest → t.Moves s.expected e) :
    Quotes r' (R a) starts places (s₁.textFrom s.taken.length) s₁.expected fits := by
  intro e he g hg z hz
  obtain ⟨hparting, hline, es, ends, certain, hc, hend, hend'⟩ := hfits z hz
  have hquote : ∀ n,
    (∀ N, Alike Grammar.anyTable N (fun _ _ a b => R a b) s.rest.length s.expected none
      r (r' n)) → _ :=
    fun n hn => readsAs_quote hrun hlt hn (hc n) ⟨hshuts, hparting, hline⟩ hend hend'
      (hmoves e he) hg
  obtain ⟨n, hn⟩ := halike.exists
  refine ⟨(hquote n hn).1 ▸ hstarts, halike.mono fun n hn => (hquote n hn).2⟩

end Reading
end ShadowImpl
