import ShadowImpl.Proofs.PrintedTokens
import ShadowImpl.Proofs.RoundTrip

/-!
# What is lost in print

Predicates that have been read and printed have the tokens that they were read from, but for commas
in front of a closing bracket, binders without lifetimes and arguments in front of a turbofish.
-/

namespace ShadowImpl

open Lexeme Recogniser Reading

variable {s s' s₁ s₂ s₃ s₄ : Scan} {e e' e'' : Expectation} {κ : Terminal} {t u n : Token}
  {ts us : List Token} {x y z : List Char} {ws xs : List (List Char)}

/-! ## Trees of tokens -/

/-- Tokens whose parentheses, square brackets and braces match. -/
inductive Nested : List Token → Prop where
  | nil : Nested []
  | token {t : Token} (h : Grammar.admits [.comma, .semi] t.kind = true) : Nested [t]
  | append {ts us : List Token} (hts : Nested ts) (hus : Nested us) : Nested (ts ++ us)
  | group {o c : Token} {ts : List Token} (h : Grammar.closer? o.kind = some c.kind)
      (hts : Nested ts) :
    Nested (o :: (ts ++ [c]))

theorem Scan.Takes.unique (h : s.Takes ts s') (h' : s.Takes us s') : ts = us := by
  have := h.1.symm.trans h'.1
  simpa using this

theorem Scan.Shifts.takes (h : s.Shifts κ e t s') : s.Takes [t] s' := by
  obtain ⟨taken, rest, expected⟩ := s'
  obtain ⟨hnext, -, rfl, -⟩ := h
  exact .token hnext expected

namespace Grammar

theorem group_trees_nested (n : Nat) :
    (∀ s s', (group n).run s = .ok ((), s') → ∃ o ts c, s.Takes (o :: (ts ++ [c])) s' ∧
      closer? o.kind = some c.kind ∧ Nested ts) ∧
    ∀ seps, (∀ κ ∈ seps, κ ∈ [Terminal.comma, .semi]) →
    ∀ s s', (trees seps n).run s = .ok ((), s') →
      ∃ ts, s.Takes ts s' ∧ Nested ts := by
  induction n with
  | zero => exact ⟨fun _ _ h => by simp [group] at h, fun _ _ _ _ h => by simp [trees] at h⟩
  | succ n ih =>
    refine ⟨fun s s' h => ?_, fun seps hseps s s' h => ?_⟩
    · rw [group, run_peek_bind] at h
      cases hk : closer? s.next.kind with
      | none => simp [hk] at h
      | some close =>
        rw [hk] at h
        obtain ⟨o, s₁, ho, h⟩ := shifts_of_shift h
        obtain ⟨⟨⟩, s₂, htrees, h⟩ := run_bind_eq_ok.mp h
        obtain ⟨c, s₃, hc, h⟩ := shifts_of_token h
        obtain ⟨-, rfl⟩ := of_run_pure h
        obtain ⟨ts, hts, hnested⟩ := ih.2 _ (by simp) _ _ htrees
        refine ⟨o, ts, c, by simpa using ho.takes.trans (hts.trans hc.takes), ?_, hnested⟩
        rw [ho.kind, hk, hc.kind]
    · rw [trees, run_peek_bind] at h
      split at h
      · obtain ⟨⟨⟩, s₁, hgroup, h⟩ := run_bind_eq_ok.mp h
        obtain ⟨o, ts, c, hts, hclose, hnested⟩ := ih.1 _ _ hgroup
        obtain ⟨us, hus, hnested'⟩ := ih.2 _ hseps _ _ h
        exact ⟨_, hts.trans hus, .append (.group hclose hnested) hnested'⟩
      · split at h
        · -- no bracket is admitted as a token of its own
          rename_i hadmits
          obtain ⟨t, s₁, ht, h⟩ := shifts_of_shift h
          obtain ⟨us, hus, hnested⟩ := ih.2 _ hseps _ _ h
          refine ⟨_, ht.takes.trans hus, .append (.token ?_) hnested⟩
          rw [ht.kind]
          simp only [admits, Bool.or_eq_true, List.contains_iff_mem] at hadmits ⊢
          exact hadmits.imp_right (hseps _)
        · obtain ⟨-, rfl⟩ := of_run_pure h
          exact ⟨[], .refl s, .nil⟩

theorem someTrees_nested {seps : List Terminal} {n : Nat}
    (hseps : ∀ κ ∈ seps, κ ∈ [Terminal.comma, .semi])
    (h : (someTrees seps n).run s = .ok ((), s')) : ∃ ts, s.Takes ts s' ∧ Nested ts := by
  rw [someTrees, run_peek_bind] at h
  split at h
  · exact (group_trees_nested n).2 seps hseps s s' h
  · simp at h

end Grammar

/-! ## Last tokens -/

namespace Phrase

/-- The token taken last is no name. -/
def LastNoName (s : Scan) : Prop :=
  ∃ t r, s.taken = t :: r ∧ t.kind ≠ .ident

/-- How a phrase ends in front of `::`. -/
def EndsNameless : Phrase → Scan → Scan → Prop
  | path, _, _ | segments, _, _ => False
  | ty, _, s' | bound, _, s' | lifetime _, _, s' | commas _ _ _ _, _, s' => LastNoName s'
  | args, s, s' | after _ _ _, s, s' => s' = s ∨ LastNoName s'
  | pluses k _, s, s' => k.EndsNameless s s'
  | _, _, _ => True

end Phrase

theorem Scan.Shifts.lastNoName (h : s.Shifts κ e t s') (hκ : κ ≠ .ident) : Phrase.LastNoName s' :=
  ⟨t, s.taken, h.taken, by rwa [h.kind]⟩

namespace Phrase.Derives

/-- What stands in front of `::` and is not gone on with ends in something else than a name. -/
theorem endsNameless {k : Phrase} {v : k.Value} (h : Derives k s v s')
    (hsep : s'.next.kind = .pathSep) : k.EndsNameless s s' := by
  induction h with
  | path _ ih => exact (ih hsep).elim
  | qualified _ _ _ _ _ _ _ _ ih => exact (ih hsep).elim
  | ref _ _ _ _ ih | ptr _ _ _ _ ih => exact ih hsep
  | unit _ hclose => exact hclose.lastNoName (by decide)
  | tuple _ _ _ _ _ ih => exact ih hsep
  | paren _ _ hclose | slice _ _ hclose => exact hclose.lastNoName (by decide)
  | array _ _ _ _ _ hclose => exact hclose.lastNoName (by decide)
  | never h => exact h.lastNoName (by decide)
  | implTrait _ _ ih | dynTrait _ _ ih => exact ih hsep
  | fnPtr _ _ _ _ _ _ _ _ ihinputs ihoutput | call _ _ _ ihinputs ihoutput =>
    rcases ihoutput hsep with rfl | hlast
    · -- Without an output the type ends in its `)`.
      first | exact ihinputs hsep | exact .inr (ihinputs hsep)
    · first | exact hlast | exact .inr hlast
  | segments _ _ ih => exact ih hsep
  | last _ _ _ hend => exact hend hsep
  | more _ _ _ _ _ _ ih => exact ih hsep
  | noArgs => exact .inl rfl
  | angle _ _ ih | turbofish _ _ _ _ _ ih => exact .inr (ih hsep)
  | outlives _ ih => exact ih hsep
  | trait _ _ _ _ ih => exact (ih hsep).elim
  | lifetime h => exact h.lastNoName (by decide)
  | commasNil hk hclose | commasLast hk _ hclose => exact hclose.lastNoName (by cases hk <;> decide)
  | commasCons _ _ _ _ _ ih => exact ih hsep
  | plusesLast _ _ _ ih => exact ih hsep
  | plusesCons hk _ _ _ _ ih => cases hk <;> exact ih hsep
  | afterNone => exact .inl rfl
  | afterSome hk _ _ ih =>
    cases hk with
    | asTrait => exact (ih hsep).elim
    | output => exact .inr (ih hsep)
  | _ => trivial

end Phrase.Derives

/-- Tokens that are read as arguments of a name, in front of `::`. -/
def Arguments (ts : List Token) : Prop :=
  ∃ s args s', Phrase.Derives .args s (some args) s' ∧ s'.next.kind = .pathSep ∧ s.Takes ts s'

theorem Arguments.ne_nil (h : Arguments ts) : ts ≠ [] := by
  obtain ⟨s, args, s', hargs, -, htakes⟩ := h
  cases hargs with
  | angle hopen has =>
    obtain ⟨us, hus⟩ := has.reaches.takes
    rw [htakes.unique (hopen.takes.trans hus)]
    simp
  | call hopen hinputs houtput =>
    obtain ⟨us, hus⟩ := (hinputs.reaches.trans houtput.reaches).takes
    rw [htakes.unique (hopen.takes.trans hus)]
    simp
  | turbofish hargs hsep hopen has =>
    obtain ⟨us, hus⟩ := hargs.reaches.takes
    obtain ⟨vs, hvs⟩ := (hopen.reaches.trans has.reaches).takes
    rw [htakes.unique (hus.trans (hsep.takes.trans hvs))]
    simp

theorem Arguments.exists_last (h : Arguments ts) : ∃ us a, ts = us ++ [a] ∧ a.kind ≠ .ident := by
  obtain ⟨us, a, rfl⟩ : ∃ us a, ts = us ++ [a] :=
    ⟨_, _, (List.dropLast_append_getLast h.ne_nil).symm⟩
  obtain ⟨s, args, s', hargs, hsep, htakes⟩ := h
  have hlast : Phrase.LastNoName s' := by
    cases hargs with
    | angle hopen has => exact has.endsNameless hsep
    | turbofish hargs _ hopen has => exact has.endsNameless hsep
    | call hopen hinputs houtput =>
      rcases houtput.endsNameless hsep with rfl | hlast
      · exact hinputs.endsNameless hsep
      · exact hlast
  obtain ⟨t, r, ht, hne⟩ := hlast
  have htaken := htakes.1
  rw [ht, List.reverse_append, List.reverse_singleton, List.singleton_append,
    List.cons_append] at htaken
  obtain ⟨rfl, -⟩ := List.cons.inj htaken
  exact ⟨us, t, rfl, hne⟩

/-! ## Abridged tokens -/

/-- The brackets of types. -/
def brackets : List (Terminal × Terminal) :=
  [(.lpar, .rpar), (.lt, .gt), (.lsqb, .rsqb)]

/-- Whether a bracket, with those around what is not looked into. -/
def isBracket (κ : Terminal) : Bool :=
  ([.lpar, .rpar, .lt, .gt, .lsqb, .rsqb, .lbrace, .rbrace] : List Terminal).contains κ

/-- The texts are those of the tokens, but for commas in front of a closing bracket and binders
without lifetimes. Brackets match, so the comma of a tuple with one element is told apart from one
behind several. If `loses`, arguments of a name may be missing in front of its turbofish. -/
inductive Abridged (loses : Prop) : List Token → List (List Char) → Prop where
  | nil : Abridged loses [] []
  | token {t : Token} (h : isBracket t.kind = false) : Abridged loses [t] [t.text]
  | append {ts us : List Token} {ws xs : List (List Char)} (hts : Abridged loses ts ws)
    (hus : Abridged loses us xs) : Abridged loses (ts ++ us) (ws ++ xs)
  | group {o c : Token} {ts : List Token} {ws : List (List Char)} (h : (o.kind, c.kind) ∈ brackets)
    (hts : Abridged loses ts ws) : Abridged loses (o :: (ts ++ [c])) (o.text :: (ws ++ [c.text]))
  /-- The length of an array is kept as it is. -/
  | array {o m c : Token} {ts us : List Token} {ws : List (List Char)} (ho : o.kind = .lsqb)
    (hm : m.kind = .semi) (hc : c.kind = .rsqb) (hts : Abridged loses ts ws) (hus : Nested us) :
    Abridged loses (o :: (ts ++ (m :: (us ++ [c]))))
      (o.text :: (ws ++ (m.text :: (us.map Token.text ++ [c.text]))))
  /-- A block is kept as it is. -/
  | block {o c : Token} {ts : List Token} (ho : o.kind = .lbrace) (hc : c.kind = .rbrace)
    (hts : Nested ts) :
    Abridged loses (o :: (ts ++ [c])) (o.text :: (ts.map Token.text ++ [c.text]))
  /-- A comma behind arguments or lifetimes. -/
  | angleComma {o m c : Token} {ts : List Token} {ws : List (List Char)} (ho : o.kind = .lt)
    (hm : m.kind = .comma) (hc : c.kind = .gt) (hts : Abridged loses ts ws) :
    Abridged loses (o :: (ts ++ [m, c])) (o.text :: (ws ++ [c.text]))
  /-- A comma behind parameters. -/
  | callComma {f o m c : Token} {ts : List Token} {ws : List (List Char)}
    (hf : f.kind ∈ [Terminal.ident, .kwFn]) (ho : o.kind = .lpar) (hm : m.kind = .comma)
    (hc : c.kind = .rpar) (hts : Abridged loses ts ws) :
    Abridged loses (f :: o :: (ts ++ [m, c])) (f.text :: o.text :: (ws ++ [c.text]))
  /-- A comma behind more than one element. -/
  | tupleComma {o k m c : Token} {ts us : List Token} {ws xs : List (List Char)}
      (ho : o.kind = .lpar)
    (hk : k.kind = .comma) (hm : m.kind = .comma) (hc : c.kind = .rpar) (hts : Abridged loses ts ws)
    (hus : Abridged loses us xs) : Abridged loses (o :: (ts ++ (k :: (us ++ [m, c]))))
      (o.text :: (ws ++ (k.text :: (xs ++ [c.text]))))
  | binder {f o c : Token} (hf : f.kind = .kwFor) (ho : o.kind = .lt) (hc : c.kind = .gt) :
    Abridged loses [f, o, c] []
  | lost {n m o : Token} {ts us : List Token} {ws : List (List Char)} (h : loses)
      (hn : n.kind = .ident)
    (hts : Arguments ts) (hm : m.kind = .pathSep) (ho : o.kind = .lt)
    (hus : Abridged loses (n :: m :: o :: us) ws) : Abridged loses (n :: (ts ++ m :: o :: us)) ws

/-- Somewhere arguments stand behind something else than a name: `a :: <`. -/
def Doubled (ts : List Token) : Prop :=
  ∃ a m o, [a, m, o] <:+: ts ∧ a.kind ≠ .ident ∧ m.kind = .pathSep ∧ o.kind = .lt

theorem Doubled.mono (h : Doubled ts) (hts : ts <:+: us) : Doubled us := by
  obtain ⟨a, m, o, hamo, h⟩ := h
  exact ⟨a, m, o, hamo.trans hts, h⟩

/-- Arguments are lost only where they are doubled. -/
theorem Abridged.of_doubled {p : Prop} (h : Abridged True ts ws) (hp : Doubled ts → p) :
    Abridged p ts ws := by
  induction h with
  | nil => exact .nil
  | token h => exact .token h
  | append _ _ ih ih' =>
    -- Lists of arguments that follow each other in a part do so in the whole.
    refine .append (ih fun h => hp (h.mono ?_)) (ih' fun h => hp (h.mono ?_))
    · exact List.infix_append' [] _ _
    · exact (List.suffix_append _ _).isInfix
  | @group o c _ _ h _ ih =>
    refine .group h (ih fun h => hp (h.mono ?_))
    exact ⟨[o], [c], by simp⟩
  | @array o m c _ us _ ho hm hc _ hus ih =>
    refine .array ho hm hc (ih fun h => hp (h.mono ?_)) hus
    exact ⟨[o], m :: (us ++ [c]), by simp⟩
  | block ho hc hts => exact .block ho hc hts
  | @angleComma o m c _ _ ho hm hc _ ih =>
    refine .angleComma ho hm hc (ih fun h => hp (h.mono ?_))
    exact ⟨[o], [m, c], by simp⟩
  | @callComma f o m c _ _ hf ho hm hc _ ih =>
    refine .callComma hf ho hm hc (ih fun h => hp (h.mono ?_))
    exact ⟨[f, o], [m, c], by simp⟩
  | @tupleComma o k m c ts us _ _ ho hk hm hc _ _ ih ih' =>
    refine .tupleComma ho hk hm hc (ih fun h => hp (h.mono ?_)) (ih' fun h => hp (h.mono ?_))
    · exact ⟨[o], k :: (us ++ [m, c]), by simp⟩
    · exact ⟨o :: (ts ++ [k]), [m, c], by simp⟩
  | binder hf ho hc => exact .binder hf ho hc
  | @lost n m o ts us _ _ hn hts hm ho _ ih =>
    obtain ⟨ts', a, rfl, ha⟩ := hts.exists_last
    have hdoubled : Doubled (n :: (ts' ++ [a] ++ m :: o :: us)) :=
      ⟨a, m, o, ⟨n :: ts', us, by simp⟩, ha, hm, ho⟩
    exact .lost (hp hdoubled) hn hts hm ho (ih fun _ => hp hdoubled)

/-- Every name is kept. -/
theorem Abridged.text_mem (h : Abridged False ts ws) (ht : t ∈ ts) (hk : t.kind = .ident) :
    t.text ∈ ws := by
  induction h with
  | nil => simp at ht
  | token => simp_all
  | append _ _ ih ih' => grind
  | group h _ ih =>
    simp only [brackets, List.mem_cons, Prod.mk.injEq, List.not_mem_nil, or_false] at h
    grind
  | array => grind
  | block => grind
  | angleComma => grind
  | callComma => grind
  | tupleComma => grind
  | binder => grind
  | lost h => exact absurd h id

/-! ## Pieces -/

theorem Scan.Shifts.text_eq (h : s.Shifts κ e t s')
    (hκ : κ ∈ Terminal.keywords ++ Terminal.symbols) : t.text = κ.spelling := by
  rw [Next.text_of_token h.next (by rwa [h.kind]), h.kind]

/-- The tokens between two scans are printed as `x`, as far as they are not left out. -/
def Kept (s s' : Scan) (x : List Char) (fits : List Char → Prop) : Prop :=
  ∃ ts ws, s.Takes ts s' ∧ Abridged True ts ws ∧ ∀ z, fits z → Worded (x ++ z) ws z

variable {f φ : List Char → Prop}

namespace Kept

theorem nil : Kept s s [] f :=
  ⟨[], [], .refl s, .nil, fun z _ => .nil z⟩

theorem mono (h : Kept s s' x f) (hf : ∀ z, φ z → f z) : Kept s s' x φ := by
  obtain ⟨ts, ws, hts, habr, hw⟩ := h
  exact ⟨ts, ws, hts, habr, fun z hz => hw z (hf z hz)⟩

theorem append (h : Kept s s₁ x f) (h' : Kept s₁ s' y φ) (hf : ∀ z, φ z → f (y ++ z)) :
    Kept s s' (x ++ y) φ := by
  obtain ⟨ts, ws, hts, habr, hw⟩ := h
  obtain ⟨us, xs, hus, habr', hw'⟩ := h'
  refine ⟨_, _, hts.trans hus, .append habr habr', fun z hz => ?_⟩
  rw [List.append_assoc]
  exact (hw _ (hf z hz)).append (hw' z hz)

/-- A piece that anything may stand behind. -/
theorem before (h : Kept s s₁ x fun _ => True) (h' : Kept s₁ s' y f) : Kept s s' (x ++ y) f :=
  h.append h' fun _ _ => trivial

theorem space (h : Kept s s' x f) : Kept s s' (' ' :: x) f := by
  obtain ⟨ts, ws, hts, habr, hw⟩ := h
  exact ⟨ts, ws, hts, habr, fun z hz => (hw z hz).space⟩

/-- A word with a space behind it. -/
theorem spaced (h : Kept s s₁ x Breaks) (h' : Kept s₁ s' y f) : Kept s s' (x ++ ' ' :: y) f :=
  h.append h'.space fun z _ => by simp [Breaks, isBreak]

/-- A piece that is one token. -/
theorem single (h : s.Shifts κ e t s') (hκ : isBracket κ = false)
    (hw : ∀ z, f z → Worded (t.text ++ z) [t.text] z) : Kept s s' t.text f :=
  ⟨[t], [t.text], h.takes, .token (by rwa [h.kind]), hw⟩

theorem symbol (h : s.Shifts κ e t s')
    (hκ : finds Expected.anything κ = true ∧ isBracket κ = false ∧ κ ∈ Terminal.keywords ++
    Terminal.symbols) : Kept s s' κ.spelling f := by
  have htext := h.text_eq hκ.2.2
  rw [← htext]
  refine .single h hκ.2.1 fun z _ => ?_
  rw [htext]
  exact .symbol hκ.1 (.nil z)

theorem colon (h : s.Shifts .colon e t s') : Kept s s' [':'] (·.head? ≠ some ':') := by
  have htext : t.text = [':'] := h.text_eq (by decide)
  rw [← htext]
  refine .single h (by decide) fun z hz => ?_
  rw [htext]
  exact .colon hz (.nil z)

theorem keyword (h : s.Shifts κ e t s') (hκ : κ ∈ Terminal.keywords) :
    Kept s s' κ.spelling Breaks := by
  have hall : ∀ κ ∈ Terminal.keywords, isBracket κ = false := by decide
  have htext := h.text_eq (List.mem_append_left _ hκ)
  rw [← htext]
  refine .single h (hall κ hκ) fun z hz => ?_
  rw [htext]
  exact .keyword hκ hz (.nil z)

theorem name (h : s.Shifts .ident e t s') : Kept s s' t.text Breaks :=
  .single h (by decide) fun z hz => .name (isName_of_shifts h) hz (.nil z)

theorem lifetime (h : s.Shifts .lifetime e t s') : Kept s s' t.text Breaks :=
  .single h (by decide) fun z hz => .lifetime (isLifetime_of_shifts h) hz (.nil z)

/-- A piece in brackets. -/
theorem wrap {o c : Terminal} (ho : s.Shifts o e t s₁) (h : Kept s₁ s₂ x f)
    (hc : s₂.Shifts c e' u s') (hb : (o, c) ∈ brackets) (hf : ∀ z, φ z → f (c.spelling ++ z)) :
    Kept s s' (o.spelling ++ (x ++ c.spelling)) φ := by
  have hall : ∀ p ∈ brackets, (finds Expected.anything p.1 = true ∧
      finds Expected.anything p.2 = true) ∧ p.1 ∈ Terminal.keywords ++ Terminal.symbols ∧
      p.2 ∈ Terminal.keywords ++ Terminal.symbols := by
    decide
  obtain ⟨⟨hfo, hfc⟩, hso, hsc⟩ := hall _ hb
  obtain ⟨ts, ws, hts, habr, hw⟩ := h
  refine ⟨_, _, (ho.takes.trans (hts.trans hc.takes)), .group ?_ habr, fun z hz => ?_⟩
  · rwa [ho.kind, hc.kind]
  · rw [ho.text_eq hso, hc.text_eq hsc, List.append_assoc, List.append_assoc]
    exact .symbol hfo ((hw _ (hf z hz)).append (.symbol hfc (.nil z)))

end Kept

/-- Elements with commas between them are printed as `x`, up to the token `close`. A comma in front
of that token is left out. -/
def KeptList (close : Terminal) (s s' : Scan) (x : List Char) (fits : List Char → Prop) : Prop :=
  ∃ ts m c ws, s.Takes (ts ++ (m ++ [c])) s' ∧ (m = [] ∨ ∃ k : Token, m = [k] ∧ k.kind = .comma) ∧
    c.kind = close ∧ c.text = close.spelling ∧ Abridged True ts ws ∧
    ∀ z, fits z → Worded (x ++ (close.spelling ++ z)) ws (close.spelling ++ z)

namespace KeptList

variable {close : Terminal}

theorem nil (h : s.Shifts close e t s') (hclose : close ∈ [Terminal.gt, .rpar]) :
    KeptList close s s' [] f := by
  have hall : ∀ κ ∈ [Terminal.gt, .rpar], κ ∈ Terminal.keywords ++ Terminal.symbols := by decide
  exact ⟨[], [], t, [], h.takes, .inl rfl, h.kind, h.text_eq (hall _ hclose), .nil,
    fun z _ => .nil _⟩

theorem single (h : Kept s s₁ x f) (hc : s₁.Shifts close e t s')
    (hclose : close ∈ [Terminal.gt, .rpar]) (hf : ∀ z, φ z → f (close.spelling ++ z)) :
    KeptList close s s' x φ := by
  have hall : ∀ κ ∈ [Terminal.gt, .rpar], κ ∈ Terminal.keywords ++ Terminal.symbols := by decide
  obtain ⟨ts, ws, hts, habr, hw⟩ := h
  exact ⟨ts, [], t, ws, hts.trans hc.takes, .inl rfl, hc.kind, hc.text_eq (hall _ hclose), habr,
    fun z hz => hw _ (hf z hz)⟩

/-- A comma behind the last element. -/
theorem comma (h : Kept s s₁ x f) (hm : s₁.Shifts .comma e' u s₂) (hc : s₂.Shifts close e t s')
    (hclose : close ∈ [Terminal.gt, .rpar]) (hf : ∀ z, φ z → f (close.spelling ++ z)) :
    KeptList close s s' x φ := by
  have hall : ∀ κ ∈ [Terminal.gt, .rpar], κ ∈ Terminal.keywords ++ Terminal.symbols := by decide
  obtain ⟨ts, ws, hts, habr, hw⟩ := h
  exact ⟨ts, [u], t, ws, hts.trans (hm.takes.trans hc.takes), .inr ⟨u, rfl, hm.kind⟩, hc.kind,
    hc.text_eq (hall _ hclose), habr, fun z hz => hw _ (hf z hz)⟩

theorem cons (h : Kept s s₁ x f) (hm : s₁.Shifts .comma e u s₂) (hxs : KeptList close s₂ s' y φ)
    (hf : ∀ z, φ z → f (',' :: ' ' :: (y ++ (close.spelling ++ z)))) :
    KeptList close s s' (x ++ (", ".toList ++ y)) φ := by
  obtain ⟨ts, ws, hts, habr, hw⟩ := h
  obtain ⟨us, m, c, xs, hus, hm', hc, hctext, habr', hw'⟩ := hxs
  refine ⟨ts ++ u :: us, m, c, ws ++ (u.text :: xs), ?_, hm', hc, hctext,
    .append habr (.append (.token (by rw [hm.kind]; rfl)) habr'), fun z hz => ?_⟩
  · simpa using hts.trans (hm.takes.trans hus)
  · rw [List.append_assoc, List.append_assoc, hm.text_eq (by decide)]
    exact (hw _ (hf z hz)).append (.symbol (κ := .comma) (by decide) (hw' z hz).space)

/-- Arguments. -/
theorem angle (ho : s₁.Shifts .lt e t s) (h : KeptList .gt s s' x f) :
    ∃ us ws, s₁.Takes (t :: us) s' ∧ Abridged True (t :: us) ws ∧ ∀ z, f z →
    Worded ('<' :: (x ++ '>' :: z)) ws z := by
  obtain ⟨ts, m, c, ws, hts, hm, hc, hctext, habr, hw⟩ := h
  refine ⟨ts ++ (m ++ [c]), t.text :: (ws ++ [c.text]), ho.takes.trans hts, ?_, fun z hz => ?_⟩
  · rcases hm with rfl | ⟨k, rfl, hk⟩
    · exact .group (by rw [ho.kind, hc]; decide) habr
    · exact .angleComma ho.kind hk hc habr
  · rw [ho.text_eq (by decide), hctext]
    exact .symbol (κ := .lt) (by decide)
      ((hw z hz).append (.symbol (κ := .gt) (by decide) (.nil z)))

/-- Arguments of a name. -/
theorem args (hn : s₂.Shifts .ident e n s₁) (ho : s₁.Shifts .lt e' t s)
    (h : KeptList .gt s s' x f) : Kept s₂ s' (n.text ++ '<' :: (x ++ ['>'])) f := by
  obtain ⟨us, ws, hus, habr, hw⟩ := h.angle ho
  refine ⟨_, _, hn.takes.trans hus, .append (.token (by rw [hn.kind]; rfl)) habr, fun z hz => ?_⟩
  have hall : Worded (n.text ++ '<' :: (x ++ '>' :: z)) (n.text :: ws) z :=
    .name (isName_of_shifts hn) (by simp [Breaks, isBreak]) (hw z hz)
  simpa using hall

/-- Arguments behind other arguments of the same name, which are lost, or behind the name itself. -/
theorem turbofish (hn : s₄.Shifts .ident e n s₃) (hts : s₃.Takes ts s₂)
    (hargs : ts = [] ∨ Arguments ts) (hm : s₂.Shifts .pathSep e' u s₁) (ho : s₁.Shifts .lt e'' t s)
    (h : KeptList .gt s s' x f) :
    Kept s₄ s' (n.text ++ (Terminal.pathSep.spelling ++ '<' :: (x ++ ['>']))) f := by
  obtain ⟨us, ws, hus, habr, hw⟩ := h.angle ho
  have hkept : Abridged True (n :: u :: t :: us) (n.text :: u.text :: ws) :=
    .append (.token (by rw [hn.kind]; rfl)) (.append (.token (by rw [hm.kind]; rfl)) habr)
  refine ⟨n :: (ts ++ u :: t :: us), n.text :: u.text :: ws,
    hn.takes.trans (hts.trans (hm.takes.trans hus)), ?_, fun z hz => ?_⟩
  · rcases hargs with rfl | hargs
    · exact hkept
    · exact .lost trivial hn.kind hargs hm.kind ho.kind hkept
  · have hrest : Worded (Terminal.pathSep.spelling ++ '<' :: (x ++ '>' :: z)) (u.text :: ws) z := by
      rw [hm.text_eq (by decide)]
      exact .symbol (κ := .pathSep) (by decide) (hw z hz)
    have hall : Worded (n.text ++ (Terminal.pathSep.spelling ++ '<' :: (x ++ '>' :: z)))
        (n.text :: u.text :: ws) z :=
      .name (isName_of_shifts hn) (by simp [Breaks, Terminal.spelling, isBreak]) hrest
    simpa using hall

/-- A binder with lifetimes. -/
theorem binder (hfor : s₂.Shifts .kwFor e n s₁) (ho : s₁.Shifts .lt e' t s)
    (h : KeptList .gt s s' x fun _ => True) :
    Kept s₂ s' (Terminal.kwFor.spelling ++ '<' :: (x ++ ['>', ' '])) φ := by
  obtain ⟨us, ws, hus, habr, hw⟩ := h.angle ho
  refine ⟨_, _, hfor.takes.trans hus, .append (.token (by rw [hfor.kind]; rfl)) habr, fun z _ => ?_⟩
  have hrest : Worded ('<' :: (x ++ '>' :: ' ' :: z)) ws z := by
    simpa using (hw (' ' :: z) trivial).append (.space (.nil z))
  rw [hfor.text_eq (by decide)]
  have hall : Worded (Terminal.kwFor.spelling ++ '<' :: (x ++ '>' :: ' ' :: z))
      (Terminal.kwFor.spelling :: ws) z :=
    .keyword (by decide) (by simp [Breaks, isBreak]) hrest
  simpa using hall

/-- Parameters of a name or of a function pointer. -/
theorem call (hn : s₂.Shifts κ e n s₁) (hκ : κ ∈ [Terminal.ident, .kwFn]) (hname : IsName n.text)
    (ho : s₁.Shifts .lpar e' t s) (h : KeptList .rpar s s' x f) :
    Kept s₂ s' (n.text ++ '(' :: (x ++ [')'])) f := by
  have hall : ∀ κ ∈ [Terminal.ident, .kwFn], isBracket κ = false := by decide
  obtain ⟨ts, m, c, ws, hts, hm, hc, hctext, habr, hw⟩ := h
  refine ⟨n :: t :: (ts ++ (m ++ [c])), n.text :: t.text :: (ws ++ [c.text]),
    hn.takes.trans (ho.takes.trans hts), ?_, fun z hz => ?_⟩
  · rcases hm with rfl | ⟨k, rfl, hk⟩
    · refine .append (.token (by rw [hn.kind]; exact hall κ hκ)) (.group ?_ habr)
      rw [ho.kind, hc]
      decide
    · exact .callComma (by rwa [hn.kind]) ho.kind hk hc habr
  · rw [ho.text_eq (by decide), hctext, List.append_assoc, List.cons_append, List.append_assoc]
    refine .name hname (by simp [Breaks, isBreak]) ?_
    exact .symbol (κ := .lpar) (by decide)
      ((hw z hz).append (.symbol (κ := .rpar) (by decide) (.nil z)))

/-- The elements of a tuple. -/
theorem tuple {g : List Char} (hg : IsLayout g) (ho : s.Shifts .lpar e t s₁) (he : Kept s₁ s₂ x f)
    (hk : s₂.Shifts .comma e' u s₃) (h : KeptList .rpar s₃ s' y φ)
    (hf : ∀ z, φ z → f (',' :: (g ++ (y ++ ')' :: z)))) :
    Kept s s' ('(' :: (x ++ ',' :: (g ++ (y ++ [')'])))) φ := by
  obtain ⟨ts, ws, hts, habr, hw⟩ := he
  obtain ⟨us, m, c, xs, hus, hm, hc, hctext, habr', hw'⟩ := h
  refine ⟨t :: (ts ++ u :: (us ++ (m ++ [c]))),
    t.text :: (ws ++ (u.text :: (xs ++ [c.text]))), ?_, ?_, fun z hz => ?_⟩
  · simpa using ho.takes.trans (hts.trans (hk.takes.trans hus))
  · rcases hm with rfl | ⟨k, rfl, hm⟩
    · have hcomma : Abridged True [u] [u.text] := .token (by rw [hk.kind]; rfl)
      have hgroup : Abridged True (t :: ((ts ++ ([u] ++ us)) ++ [c]))
          (t.text :: ((ws ++ ([u.text] ++ xs)) ++ [c.text])) :=
        .group (by rw [ho.kind, hc]; decide) (.append habr (.append hcomma habr'))
      simpa using hgroup
    · exact .tupleComma ho.kind hk.kind hm hc habr habr'
  · rw [ho.text_eq (by decide), hk.text_eq (by decide), hctext]
    have hrest : Worded (g ++ (y ++ ')' :: z)) (xs ++ [Terminal.rpar.spelling]) z :=
      ((hw' z hz).append (.symbol (κ := .rpar) (by decide) (.nil z))).layout hg
    have hall : Worded ('(' :: (x ++ ',' :: (g ++ (y ++ ')' :: z)))) (Terminal.lpar.spelling ::
        (ws ++ (Terminal.comma.spelling :: (xs ++ [Terminal.rpar.spelling])))) z :=
      .symbol (κ := .lpar) (by decide)
        ((hw _ (hf z hz)).append (.symbol (κ := .comma) (by decide) hrest))
    simpa using hall

end KeptList

/-! ## What stands behind a piece -/

namespace Phrase

/-- What a text has to be to stand behind most printed phrases, where `s` is the scan behind it. -/
abbrev Fitting (s : Scan) (z : List Char) : Prop :=
  Breaks z ∧ Quiet s.rest z

/-- A symbol in front of a text. -/
theorem fits_symbol (h : s.Reaches s')
    (hκ : κ ∈ [Terminal.comma, .gt, .rpar, .rsqb, .semi, .lt, .lpar, .colon, .pathSep])
    (hq : Quiet s'.rest z) : Fitting s (κ.spelling ++ z) := by
  have hall : ∀ κ ∈ [Terminal.comma, .gt, .rpar, .rsqb, .semi, .lt, .lpar, .colon, .pathSep],
      isPlainText κ.spelling = true ∧ κ.spelling ≠ [] ∧ κ.spelling.head?.all isBreak = true := by
    decide
  obtain ⟨hplain, hne, hbreak⟩ := hall κ hκ
  refine ⟨?_, (h.quiet hq).text hplain⟩
  obtain ⟨c, w, hw⟩ := List.exists_cons_of_ne_nil hne
  rw [hw] at hbreak ⊢
  simpa [Breaks] using hbreak

theorem fits_shift (h : s.Shifts κ e t s')
    (hκ : κ ∈ [Terminal.comma, .gt, .rpar, .rsqb, .semi, .lt, .lpar, .colon, .pathSep])
    (hq : Quiet s'.rest z) : Fitting s (κ.spelling ++ z) :=
  fits_symbol h.reaches hκ hq

end Phrase

theorem Scan.Flag.kept_keyword {b : Bool} (h : s.Flag κ e b s') (hκ : κ ∈ Terminal.keywords) :
    Kept s s' (if b then κ.spelling ++ [' '] else []) f := by
  cases h with
  | absent => exact .nil
  | present h => exact (Kept.keyword h hκ).spaced .nil

theorem Scan.Flag.kept_symbol {b : Bool} (h : s.Flag κ e b s')
    (hκ : finds Expected.anything κ = true ∧ isBracket κ = false ∧ κ ∈ Terminal.keywords ++
    Terminal.symbols) : Kept s s' (if b then κ.spelling else []) f := by
  cases h with
  | absent => exact .nil
  | present h => exact .symbol h hκ

theorem Scan.RefLifetime.kept {l : Option Lifetime} (h : s.RefLifetime l s') :
    Kept s s' (l.elim [] fun l => l.name.toList ++ [' ']) f := by
  cases h with
  | absent => exact .nil
  | present h =>
    rw [Option.elim, String.toList_ofList]
    exact (Kept.lifetime h).spaced .nil

/-- An ABI in print. -/
def abiChars : Option String → List Char
  | none => []
  | some a => Terminal.kwExtern.spelling ++ ' ' :: if a = "" then [] else a.toList ++ [' ']

theorem Scan.Abi.kept {abi : Option String} (h : s.Abi abi s') : Kept s s' (abiChars abi) f := by
  cases h with
  | absent => exact .nil
  | bare h => simpa [abiChars] using (Kept.keyword h (by decide)).spaced .nil
  | @named s₁ _ t u h hname =>
    have hne : u.text ≠ [] := Next.text_ne_nil_of_token hname.next
    have hstring : Kept s₁ s' u.text Breaks :=
      .single hname (by decide) fun z hz => .literal hname.next (by simp [hname.kind]) hz (.nil z)
    simpa [abiChars, hne] using (Kept.keyword h (by decide)).spaced (hstring.spaced .nil)

/-! ## Verbatim pieces -/

/-- An array, with its length as it was written. -/
theorem Kept.array {n : Nat} {c : Token} (ho : s.Shifts .lsqb e t s₁)
    (h : Kept s₁ s₂ x (Phrase.Fitting s₂)) (hm : s₂.Shifts .semi Expected.anything u s₃)
    (hlength : (Grammar.someTrees [.comma, .semi] n).run s₃ = .ok ((), s₄))
    (hc : s₄.Shifts .rsqb e' c s')
    (hdoc : ¬ EndsInLineDoc (Text.trim (s₄.textFrom s₃.taken.length))) :
    Kept s s' ('[' :: (x ++ ';' :: ' ' :: (Text.trim (s₄.textFrom s₃.taken.length) ++ [']'])))
      (Phrase.Fitting s') := by
  obtain ⟨-, t₁, us, htakes, -, -, -, hscan⟩ := Grammar.length_tokens hm.expected hlength
  obtain ⟨us', htakes', hnested⟩ := Grammar.someTrees_nested (by simp) hlength
  obtain rfl := htakes.unique htakes'
  obtain ⟨ts, ws, hts, habr, hw⟩ := h
  have htext : s₄.textFrom s₃.taken.length = t₁.text ++ Token.spelled us := by
    have := textFrom_latest t₁ us s₃.taken s₄.rest s₄.expected
    rwa [← htakes.1] at this
  rw [htext] at hdoc ⊢
  obtain ⟨htrim, hfound⟩ := hscan hdoc
  rw [htrim]
  refine ⟨t :: (ts ++ u :: ((t₁ :: us) ++ [c])), _, ?_, .array ho.kind hm.kind hc.kind habr hnested,
    fun z hz => ?_⟩
  · simpa using ho.takes.trans (hts.trans (hm.takes.trans (htakes.trans hc.takes)))
  -- the length closes nothing of itself: all of it stands in the text in which it was scanned
  have hq := hc.reaches.quiet hz.2
  have hpiece : t₁.text ++ Token.spelled us <:+: s₃.rest :=
    ⟨t₁.gap, s₄.rest, by rw [htakes.2]; simp⟩
  have hquiet : Quiet s₃.rest (t₁.text ++ Token.spelled us ++ ']' :: z) :=
    (Quiet.of_piece hpiece).append
      (by simpa using (Scan.reaches_of_run hlength).quiet hq) (by simp [Breaks, isBreak])
  have hlength' : Worded (t₁.text ++ Token.spelled us ++ ']' :: z) ((t₁ :: us).map Token.text)
      (']' :: z) := by
    simpa using Worded.of_scanned (hfound z (by simpa using hq) [] isLayout_nil)
  have hfits : Phrase.Fitting s₂ (';' :: (' ' :: (t₁.text ++ Token.spelled us ++ ']' :: z))) :=
    Phrase.fits_shift hm (by simp) (by simpa using hquiet)
  rw [ho.text_eq (by decide), hm.text_eq (by decide), hc.text_eq (by decide)]
  have hall : Worded ('[' :: (x ++ ';' :: (' ' :: (t₁.text ++ Token.spelled us ++ ']' :: z))))
      (Terminal.lsqb.spelling :: (ws ++ (Terminal.semi.spelling :: ((t₁ :: us).map Token.text ++
        [Terminal.rsqb.spelling])))) z :=
    .symbol (κ := .lsqb) (by decide) ((hw _ hfits).append (.symbol (κ := .semi) (by decide)
      (hlength'.append (.symbol (κ := .rsqb) (by decide) (.nil z))).space))
  simpa using hall

namespace Grammar

/-- The tokens of a constant are printed as they are. -/
def ConstKept (s s' : Scan) : Prop :=
  ∃ t us, s.Takes (t :: us) s' ∧ Abridged True (t :: us) ((t :: us).map Token.text) ∧
    ∀ z, Phrase.Fitting s' z → Worded (t.text ++ Token.spelled us ++ z) ((t :: us).map Token.text) z

theorem literal_kept (h : s.Shifts κ e t s') (hκ : κ ∈ [Terminal.number, .char, .string]) :
    ConstKept s s' := by
  have hall : ∀ κ ∈ [Terminal.number, .char, .string], isBracket κ = false := by decide
  refine ⟨t, [], h.takes, .token (by rw [h.kind]; exact hall κ hκ), fun z hz => ?_⟩
  simpa using Worded.literal h.next (by rwa [h.kind]) hz.1 (.nil z)

theorem minus_kept (h : s.Shifts .minus [.number] t s₁) (hnumber : s₁.Shifts .number e u s') :
    ConstKept s s' := by
  have htext : t.text = ['-'] := h.text_eq (by decide)
  have hnext : Next.of [.number] (u.gap ++ (u.text ++ s'.rest)) = .token u s'.rest := by
    have := hnumber.next
    rw [Scan.next, h.expected] at this
    rw [← this, ← List.append_assoc, ← (Next.of_eq_token this).1]
  refine ⟨t, [u], h.takes.trans hnumber.takes, .append (.token (by rw [h.kind]; rfl))
    (.token (by rw [hnumber.kind]; rfl)), fun z hz => ?_⟩
  -- in front of `>` the sign would be read as an arrow
  have hhead : (u.gap ++ (u.text ++ z)).head? ≠ some '>' := by
    intro hc
    cases hgap : u.gap with
    | nil =>
      have hfirst := first_of_token hnext (by simp [hnumber.kind, Terminal.keywords])
      obtain ⟨c, w, hw⟩ := List.exists_cons_of_ne_nil (Next.text_ne_nil_of_token hnext)
      rw [hw, hnumber.kind] at hfirst
      have hdigit : c.isDigit = true := by
        simpa [starts] using starts_of_recognise (first_eq_some hfirst).2
      obtain rfl : c = '>' := by simpa [hgap, hw] using hc
      simp at hdigit
    | cons c w =>
      obtain rfl : c = '>' := by simpa [hgap] using hc
      have := (gap_of_token hnext).head_cases '>' (by simp [hgap])
      simp [isLayout] at this
  have hall := Worded.minus hhead (.number hnext hnumber.kind hz.1 (.nil z))
  simpa [htext, Terminal.spelling] using hall

theorem block_kept {n : Nat} (hk : s.next.kind = .lbrace) (h : (group n).run s = .ok ((), s')) :
    ConstKept s s' := by
  obtain ⟨o, us, c, htakes, ho, htext, hc, -, hfound⟩ := block_tokens hk h
  obtain ⟨o', us', c', htakes', -, hnested⟩ := (group_trees_nested n).1 s s' h
  obtain ⟨rfl, h'⟩ := List.cons.inj (htakes.unique htakes')
  obtain ⟨rfl, -⟩ := List.append_inj' h' rfl
  have habr : Abridged True (o :: (us ++ [c])) (o.text :: (us.map Token.text ++ [c.text])) :=
    .block ho hc hnested
  refine ⟨o, us ++ [c], htakes, by simpa using habr, fun z hz => ?_⟩
  rw [htext, List.append_assoc, List.map_cons, htext]
  exact .symbol (κ := .lbrace) (by decide) (.of_scanned (hfound z hz.1 hz.2))

theorem constTokens_kept {n : Nat} (h : (constTokens n).run s = .ok ((), s')) : ConstKept s s' := by
  have hliteral : s.next.kind ∈ [Terminal.number, .char, .string] →
      (shift Expected.afterArg >>= fun _ => pure ()).run s = .ok ((), s') → ConstKept s s' := by
    intro hk h
    obtain ⟨t, s₁, ht, h⟩ := shifts_of_shift h
    obtain ⟨-, rfl⟩ := of_run_pure h
    exact literal_kept ht hk
  rw [constTokens, run_peek_bind] at h
  split at h
  · rename_i hk
    exact hliteral (by simp [hk]) h
  · rename_i hk
    exact hliteral (by simp [hk]) h
  · rename_i hk
    exact hliteral (by simp [hk]) h
  · rename_i hk
    obtain ⟨t, s₁, ht, h⟩ := shifts_of_shift h
    obtain ⟨u, s₂, hu, h⟩ := shifts_of_token h
    obtain ⟨-, rfl⟩ := of_run_pure h
    exact minus_kept (hk ▸ ht) hu
  · rename_i hk
    exact block_kept hk h
  · simp at h

theorem constText_kept {n : Nat} {a : String} (h : (constText n).run s = .ok (a, s')) :
    Kept s s' a.toList (Phrase.Fitting s') := by
  rw [constText_eq, run_mark_bind] at h
  obtain ⟨⟨⟩, s₁, htokens, h⟩ := run_bind_eq_ok.mp h
  obtain ⟨htext, rfl⟩ := Prod.mk.inj (Except.ok.inj h)
  obtain ⟨t, us, htakes, habr, hw⟩ := constTokens_kept htokens
  have hfrom := textFrom_latest t us s.taken s₁.rest s₁.expected
  rw [← htakes.1] at hfrom
  obtain rfl : String.ofList (t.text ++ Token.spelled us) = a := by rw [← htext, ← hfrom]
  rw [String.toList_ofList]
  exact ⟨_, _, htakes, habr, hw⟩

end Grammar

end ShadowImpl
