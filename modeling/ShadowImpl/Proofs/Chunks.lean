import ShadowImpl.Proofs.Rules
import ShadowImpl.Proofs.Slices

/-!
# Verbatim pieces

Array lengths, constant arguments and names of ABIs are printed as they were written. In front of
another text they are scanned as before, unless that text closes a comment or a raw string that they
leave open. What is printed behind a piece has no end of a comment or of a raw string in it that did
not stand behind the piece in the source.
-/

namespace ShadowImpl

open Filter Lexeme Recogniser

variable {e : Expectation} {w x y y' z u v g : List Char} {t : Token} {ts us : List Token}

/-! ## Marks -/

/-- Every mark of `z` is in `y`. -/
def Quiet (y z : List Char) : Prop :=
  ∀ m : Mark, m.text <:+: z → m.text <:+: y

/-- No mark starts in the text. -/
def isPlainText (w : List Char) : Bool :=
  w.all fun c => c != '*' && c != '"'

namespace Quiet

theorem nil : Quiet y [] := by
  intro m hm
  cases m <;> simp [Mark.text] at hm

theorem behind (h : Quiet y z) (hy : y <:+ y') : Quiet y' z :=
  fun m hm => (h m hm).trans hy.isInfix

theorem text (hw : isPlainText w = true) (h : Quiet y z) : Quiet y (w ++ z) := by
  intro m hm
  refine h m ?_
  induction w with
  | nil => exact hm
  | cons c w ih =>
    simp only [isPlainText, List.all_cons, Bool.and_eq_true, bne_iff_ne] at hw
    rcases List.infix_cons_iff.mp hm with hp | hi
    · obtain ⟨d, r, hd, hmark⟩ : ∃ d r, (d = '*' ∨ d = '"') ∧ m.text = d :: r := by
        cases m <;> simp [Mark.text]
      rw [hmark] at hp
      obtain ⟨rfl, -⟩ := List.cons_prefix_cons.mp hp
      rcases hd with rfl | rfl <;> simp at hw
    · exact ih hw.2 hi

end Quiet

/-! ## Tokens where anything is expected -/

/-- The tokens `ts` are found in `x` one after the other where anything is expected, and `y` is
left. -/
inductive Scanned : List Char → List Token → List Char → Prop where
  | nil (x : List Char) : Scanned x [] x
  | cons {x y z : List Char} {t : Token} {ts : List Token}
      (h : Next.of Expected.anything x = .token t y) (hts : Scanned y ts z) : Scanned x (t :: ts) z

namespace Scanned

theorem append (h : Scanned x ts y) (h' : Scanned y us z) : Scanned x (ts ++ us) z := by
  induction h with
  | nil => exact h'
  | cons ht _ ih => exact .cons ht (ih h')

theorem spelled (h : Scanned x ts y) : x = Token.spelled ts ++ y := by
  induction h with
  | nil => rfl
  | cons ht _ ih =>
    rw [(Next.of_eq_token ht).1, ih, Token.spelled_cons, List.append_assoc _ (Token.spelled _)]

theorem of_append (h : Scanned x (ts ++ us) z) : ∃ y, Scanned x ts y ∧ Scanned y us z := by
  induction ts generalizing x with
  | nil => exact ⟨x, .nil x, h⟩
  | cons t ts ih =>
    cases h with
    | cons ht hts =>
      obtain ⟨y, h₁, h₂⟩ := ih hts
      exact ⟨y, .cons ht h₁, h₂⟩

theorem lexes (h : Scanned x ts []) : Lexes x := by
  cases h with
  | nil => exact .inl rfl
  | cons ht _ => exact Next.lexes_of_token ht

/-- Tokens that end inside of `x` are found in `x` alone. -/
theorem cut (h : Scanned (x ++ u) ts (y ++ u)) : Scanned x ts y := by
  generalize hx : x ++ u = x' at h
  generalize hy : y ++ u = y' at h
  induction h generalizing x with
  | nil =>
    obtain rfl := List.append_cancel_right (hx.trans hy.symm)
    exact .nil x
  | cons ht hts ih =>
    subst hx hy
    have hrest := hts.spelled
    rw [← List.append_assoc] at hrest
    rw [hrest] at ht
    exact .cons (Next.of_cut ht) (ih hrest.symm rfl)

end Scanned

/-- Whether a comment to the end of its line, which documents something. -/
def Token.isLineDoc (t : Token) : Prop :=
  t.kind ∈ [Terminal.docComment, .innerDoc] ∧ ['/', '/'] <+: t.text

/-- A text whose last token, where anything is expected, documents something up to the end of the
line. -/
def EndsInLineDoc (x : List Char) : Prop :=
  ∃ ts t, Scanned x (ts ++ [t]) [] ∧ t.isLineDoc

theorem EndsInLineDoc.slash {x : List Char} (h : EndsInLineDoc x) : '/' ∈ x := by
  obtain ⟨ts, t, hscan, -, htext⟩ := h
  rw [hscan.spelled]
  have := htext.subset (a := '/') (by simp)
  simp [this]

/-- No line is left open at the end of tokens. -/
def EndsLines (ts : List Token) : Prop :=
  ∀ t ∈ ts.getLast?, ¬ ['/', '/'] <+: t.text

/-- Tokens that were found in front of `u` are found in front of `v` as well. -/
theorem Scanned.inFrontOf (h : Scanned (Token.spelled ts ++ u) ts u) (hline : EndsLines ts)
    (hparts : Parts (Token.spelled ts) v) (hquiet : Quiet u v) :
    Scanned (Token.spelled ts ++ v) ts v := by
  induction ts with
  | nil => exact .nil v
  | cons t ts ih =>
    cases h with
    | cons ht hts =>
      have hrest := hts.spelled
      subst hrest
      have hcut : Next.of Expected.anything (Token.spelled (t :: ts)) =
          .token t (Token.spelled ts) :=
        Next.of_cut ht
      have hne := Next.text_ne_nil_of_token ht
      have hlast : ts ≠ [] → (Token.spelled (t :: ts)).getLast? = (Token.spelled ts).getLast? := by
        intro hts'
        have hspelled : Token.spelled ts ≠ [] := by
          cases hts with
          | nil => exact absurd rfl hts'
          | cons ht' _ =>
            rw [Token.spelled_cons]
            simp [Next.text_ne_nil_of_token ht']
        rw [Token.spelled_cons, List.getLast?_append_of_ne_nil _ hspelled]
      obtain ⟨-, k, -, hk⟩ := Next.of_eq_token ht
      -- The first token may only change where the text behind it does, so the induction is on the
      -- tokens from the front.
      refine .cons (y := Token.spelled ts ++ v) ?_ ?_
      · refine Next.of_append hcut (Scanned.cut (y := []) (u := u) hts).lexes hparts ?_ ?_
        · -- A comment up to the end of the line can only be the last token.
          intro hnil hslashes
          obtain rfl : ts = [] := by
            cases hts with
            | nil => rfl
            | cons ht' _ => simp [Next.text_ne_nil_of_token ht'] at hnil
          exact absurd hslashes (hline t (by simp))
        · intro m hm hawaited hclosed
          rw [← List.append_assoc] at hk
          exact not_infix_of_awaited hk (by simp) hm hawaited (hquiet m hclosed)
      · by_cases hts' : ts = []
        · subst hts'
          exact .nil v
        · refine ih hts (fun t' ht' => hline t' ?_) fun c hc => ?_
          · obtain ⟨t'', ts'', rfl⟩ := List.exists_cons_of_ne_nil hts'
            rwa [List.getLast?_cons_cons]
          · rw [← hlast hts']
            exact hparts c hc

/-! ## Ends of tokens -/

/-- A token that starts like a line comment is as long as one. -/
theorem slashes_of_token (h : Next.of e x = .token t y) (hs : ['/', '/'] <+: t.text ++ y) :
    ['/', '/'] <+: t.text := by
  obtain ⟨-, v, -, hv⟩ := Next.of_eq_token h
  obtain ⟨r, hr⟩ := hs
  have hcomment : Recogniser.comment (t.text ++ y) = some (2 + line r) := by
    rw [← hr]
    rfl
  have hlen := eq_of_comment hcomment hv
  refine List.prefix_of_prefix_length_le ⟨r, hr⟩ (List.prefix_append _ _) ?_
  simp only [List.length_cons, List.length_nil]
  omega

theorem isLineDoc_of_token (h : Next.of e x = .token t y)
    (hs : ['/', '/'] <+: t.text) : t.isLineDoc := by
  refine ⟨?_, hs⟩
  obtain ⟨-, v, hkind, hv⟩ := Next.of_eq_token h
  obtain ⟨r, hr⟩ := hs
  have hlen : 2 ≤ t.text.length := by
    rw [← hr]
    simp
  rw [← hr] at hv
  obtain ⟨hmem, hrec⟩ := starts_of_first (c := '/') (r := '/' :: (r ++ y)) hv
  have hfilter : order.filter (·.starts '/') = [.terminal .docComment,
    .terminal .innerDoc, .comment, .terminal .punct] := by decide
  simp only [hfilter, List.mem_cons, List.not_mem_nil, or_false, Lexeme.terminal.injEq,
    reduceCtorEq, false_or] at hmem
  rcases hmem with rfl | rfl | rfl
  · simp [hkind, Terminal.settle]
  · simp [hkind, Terminal.settle]
  · simp [recognise, Terminal.recognise, punct] at hrec

/-- Any other token ends in a visible character. -/
theorem visible_of_token (h : Next.of e x = .token t y) (hs : ¬ ['/', '/'] <+: t.text) :
    ∃ c, t.text.getLast? = some c ∧ isVisible c = true := by
  obtain ⟨-, v, -, hv⟩ := Next.of_eq_token h
  have hpos := (first_bounds hv).1
  obtain ⟨c, hc, hvisible⟩ := ink_of_recognise (first_eq_some hv).2 (by simp)
    fun hs' => hs (slashes_of_token h hs')
  refine ⟨c, ?_, hvisible⟩
  rw [List.getElem?_append_left (by omega)] at hc
  rw [List.getLast?_eq_getElem?, hc]

theorem Text.exists_trimEnd (s : List Char) :
    ∃ b, s = trimEnd s ++ b ∧ ∀ c ∈ b, isBlank c = true := by
  refine ⟨(s.reverse.takeWhile isBlank).reverse, ?_, fun c hc => ?_⟩
  · rw [trimEnd, ← List.reverse_append, List.takeWhile_append_dropWhile, List.reverse_reverse]
  · exact List.mem_takeWhile_imp (List.mem_reverse.mp hc)

theorem Text.trimEnd_of_getLast? {s : List Char} {c : Char} (hs : s.getLast? = some c)
    (hc : isBlank c = false) : trimEnd s = s := by
  obtain ⟨r, rfl⟩ := List.getLast?_eq_some_iff.mp hs
  simp [trimEnd, hc]

theorem Text.trim_eq_trimEnd {s : List Char} {c : Char} (hs : s.head? = some c)
    (hc : isBlank c = false) : trim s = trimEnd s := by
  obtain ⟨r, rfl⟩ := List.head?_eq_some_iff.mp hs
  rw [trim, List.dropWhile_cons_of_neg (by simp [hc])]

/-- A line of documentation stays one when the blanks at its end are dropped. -/
theorem first_trimEnd_of_isLineDoc (h : Next.of Expected.anything x = .token t y)
    (ht : t.isLineDoc) : ['/', '/'] <+: Text.trimEnd t.text ∧
      Next.of Expected.anything (Text.trimEnd t.text) =
        .token ⟨t.kind, [], Text.trimEnd t.text⟩ [] := by
  obtain ⟨b, hb, hblank⟩ := Text.exists_trimEnd t.text
  generalize Text.trimEnd t.text = q at hb
  -- the opening is visible, so it is not dropped
  have hopening : ∀ {a : Char} {r : List Char}, Text.isBlank a = false →
      t.text = '/' :: '/' :: a :: r → ∃ q', q = '/' :: '/' :: a :: q' ∧ q' <+: r := by
    intro a r ha hr
    have hslash : Text.isBlank '/' = false := by decide
    have hnot : ∀ c, Text.isBlank c = false → c ∉ b := by
      intro c hc hm
      simp [hblank c hm] at hc
    rw [hr] at hb
    rcases q with _ | ⟨c₁, _ | ⟨c₂, _ | ⟨c₃, q⟩⟩⟩
    · obtain rfl : '/' :: '/' :: a :: r = b := by simpa using hb
      exact absurd List.mem_cons_self (hnot _ hslash)
    · obtain ⟨-, rfl⟩ : '/' = c₁ ∧ '/' :: a :: r = b := by simpa using hb
      exact absurd List.mem_cons_self (hnot _ hslash)
    · obtain ⟨-, -, rfl⟩ : '/' = c₁ ∧ '/' = c₂ ∧ a :: r = b := by simpa using hb
      exact absurd List.mem_cons_self (hnot _ ha)
    · simp only [List.cons_append, List.cons.injEq] at hb
      obtain ⟨rfl, rfl, rfl, rfl⟩ := hb
      exact ⟨q, rfl, List.prefix_append _ _⟩
  have hline : ∀ {q r : List Char}, q <+: r → line r = r.length → line q = q.length := by
    intro q r hq hr
    rw [line, run] at hr ⊢
    have hall := List.takeWhile_eq_self_iff.mp ((List.takeWhile_prefix _).eq_of_length hr)
    rw [List.takeWhile_eq_self_iff.mpr fun c hc => hall c (hq.subset hc)]
  have hfirst := first_of_token h (by
    rcases List.mem_pair.mp ht.1 with hk | hk <;> simp [hk, Terminal.keywords])
  have hrec := recognise_cuts _ (first_eq_some hfirst).2 (Nat.le_refl _)
  obtain ⟨s, hs⟩ := ht.2
  rcases List.mem_pair.mp ht.1 with hk | hk
  · rw [hk] at hrec ⊢
    rcases docComment_eq_some.mp hrec with ⟨r, hr, hhead, hlen⟩ | ⟨r, j, hr, -⟩
    · obtain ⟨q', rfl, hq'⟩ := hopening (by decide) hr
      refine ⟨⟨'/' :: q', rfl⟩, ?_⟩
      have hr' : line r = r.length := by
        rw [hr] at hlen
        simp only [List.length_cons] at hlen
        omega
      have hdoc : docComment ('/' :: '/' :: '/' :: q') = some ('/' :: '/' :: '/' :: q').length := by
        refine docComment_eq_some.mpr (.inl ⟨q', rfl, ?_, ?_⟩)
        · intro hq
          obtain ⟨q₁, rfl⟩ := List.head?_eq_some_iff.mp hq
          obtain ⟨r', rfl⟩ := hq'
          exact hhead rfl
        · rw [hline hq' hr']
          simp only [List.length_cons]
          omega
      have := of_docComment_text (e := Expected.anything) (z := []) (by decide)
        (by rwa [List.append_nil])
      rwa [List.append_nil] at this
    · rw [hr] at hs
      simp at hs
  · rw [hk] at hrec ⊢
    rcases innerDoc_eq_some.mp hrec with hrec | hrec
    · obtain ⟨r, j, hr, hj, hlen⟩ := after_eq_some.mp hrec
      obtain ⟨q', rfl, hq'⟩ := hopening (by decide) hr
      refine ⟨⟨'!' :: q', rfl⟩, ?_⟩
      have hr' : line r = r.length := by
        rw [hr] at hlen
        simp only [Option.some.injEq, List.length_append] at hj hlen
        omega
      have hinner : first Expected.anything ('/' :: '/' :: '!' :: q') =
          some (.terminal .innerDoc, ('/' :: '/' :: '!' :: q').length) := by
        refine first_eq_some_iff.mpr ⟨by decide, rfl, ?_, ?_⟩
        · refine innerDoc_eq_some.mpr (.inl (after_eq_some.mpr ⟨q', q'.length, rfl, ?_, rfl⟩))
          rw [hline hq' hr']
        · have hbefore : before (.terminal .innerDoc) = [.terminal .docComment,
              .terminal .rawString] :=
            rfl
          simp only [hbefore, List.mem_cons, List.not_mem_nil, or_false]
          rintro m (rfl | rfl) - <;> rfl
      rw [Next.of_token hinner, List.take_length, List.drop_length]
      rfl
    · obtain ⟨r, j, hr, -⟩ := after_eq_some.mp hrec
      rw [hr] at hs
      simp at hs

/-! ## Token trees -/

namespace Grammar

open Reading

/-- The same kinds of tokens. -/
def SameKinds (ts ts' : List Token) : Prop :=
  ts'.map Token.kind = ts.map Token.kind

theorem SameKinds.append {ts us vs : List Token} (h : SameKinds (ts ++ us) vs) :
    ∃ ts' us', vs = ts' ++ us' ∧ SameKinds ts ts' ∧ SameKinds us us' := by
  rw [SameKinds, List.map_append] at h
  obtain ⟨ts', us', rfl, h₁, h₂⟩ := List.map_eq_append_iff.mp h
  exact ⟨ts', us', rfl, h₁, h₂⟩

theorem SameKinds.cons {ts vs : List Token} (h : SameKinds (t :: ts) vs) :
    ∃ t' ts', vs = t' :: ts' ∧ t'.kind = t.kind ∧ SameKinds ts ts' := by
  rw [SameKinds, List.map_cons] at h
  obtain ⟨t', ts', rfl, h₁, h₂⟩ := List.map_eq_cons_iff.mp h
  exact ⟨t', ts', rfl, h₁, h₂⟩

/-- Behind its first token, a group is read again from tokens of the same kinds. -/
def GroupAgain (n : Nat) (o : Token) (ts : List Token) : Prop :=
  ∀ m ≥ n, ∀ e x o' r ts' y taken, Next.of e x = .token o' r → o'.kind = o.kind → SameKinds ts ts' →
    Scanned r ts' y →
      (group m).run ⟨taken, x, e⟩ = .ok ((), ⟨ts'.reverse ++ o' :: taken, y, Expected.anything⟩)

/-- The same of trees, in front of a token of class `κ`. -/
def TreesAgain (seps : List Terminal) (n : Nat) (ts : List Token) (κ : Terminal) : Prop :=
  ∀ m ≥ n, ∀ x ts' y taken, SameKinds ts ts' → Scanned x ts' y →
    (Next.of Expected.anything y).kind = κ →
      (trees seps m).run ⟨taken, x, Expected.anything⟩ =
        .ok ((), ⟨ts'.reverse ++ taken, y, Expected.anything⟩)

/-- A group is read again once the trees between its brackets are. -/
theorem TreesAgain.enclosed {o c : Token} {close : Terminal}
    (h : TreesAgain [.comma, .semi] n ts close) (ho : closer? o.kind = some close)
    (hc : c.kind = close) : GroupAgain (n + 1) o (ts ++ [c]) := by
  intro m hm e x o' r us y taken hnext hkind hus hscan
  obtain ⟨m, rfl⟩ : ∃ j, m = j + 1 := ⟨m - 1, by omega⟩
  obtain ⟨ts', cs, rfl, hts', hcs⟩ := hus.append
  obtain ⟨c', cs, rfl, hc', hnil⟩ := hcs.cons
  obtain rfl : cs = [] := by simpa [SameKinds] using hnil
  obtain ⟨y₁, hscan₁, hscan₂⟩ := hscan.of_append
  cases hscan₂ with
  | cons hlast hnil =>
    cases hnil
    have hstop : (Next.of Expected.anything y₁).kind = close := by
      rw [hlast]
      exact hc'.trans hc
    have hrun := h m (by omega) r ts' y₁ (o' :: taken) hts' hscan₁ hstop
    have hopen : (Scan.mk taken x e).next = .token o' r := hnext
    rw [group, run_peek_bind, kind_of_token hopen, hkind, ho]
    refine run_shift_bind_eq_ok.mpr ⟨o', r, hnext, ?_⟩
    rw [run_bind_of_ok hrun]
    refine run_token_bind_eq_ok.mpr ⟨c', y, hlast, hc'.trans hc, ?_⟩
    simp

/-- A group, and trees behind it. -/
theorem GroupAgain.followed {seps : List Terminal} {o : Token} {κ : Terminal}
    (h : GroupAgain n o ts) (hus : TreesAgain seps n us κ) (ho : (closer? o.kind).isSome) :
    TreesAgain seps (n + 1) (o :: (ts ++ us)) κ := by
  intro m hm x vs y taken hvs hscan hstop
  obtain ⟨m, rfl⟩ : ∃ j, m = j + 1 := ⟨m - 1, by omega⟩
  obtain ⟨o', vs, rfl, ho', hvs⟩ := hvs.cons
  obtain ⟨ts', us', rfl, hts', hus'⟩ := hvs.append
  cases hscan with
  | cons hopen hscan =>
    obtain ⟨y₁, hscan₁, hscan₂⟩ := hscan.of_append
    have hrun := h m (by omega) Expected.anything x o' _ ts' y₁ taken hopen ho' hts' hscan₁
    have hrun' := hus m (by omega) y₁ us' y (ts'.reverse ++ o' :: taken) hus' hscan₂ hstop
    have hnext : (Scan.mk taken x Expected.anything).next = .token o' _ := hopen
    rw [trees, run_peek_bind, kind_of_token hnext, ho', if_pos ho, run_bind_of_ok hrun, hrun']
    simp

/-- A token that opens no group, and trees behind it. -/
theorem TreesAgain.shifted {seps : List Terminal} {κ : Terminal} (h : TreesAgain seps n us κ)
    (hopen : ¬ (closer? t.kind).isSome) (hadmits : admits seps t.kind = true) :
    TreesAgain seps (n + 1) (t :: us) κ := by
  intro m hm x vs y taken hvs hscan hstop
  obtain ⟨m, rfl⟩ : ∃ j, m = j + 1 := ⟨m - 1, by omega⟩
  obtain ⟨t', us', rfl, ht', hus'⟩ := hvs.cons
  cases hscan with
  | cons hfirst hscan =>
    have hrun := h m (by omega) _ us' y (t' :: taken) hus' hscan hstop
    have hnext : (Scan.mk taken x Expected.anything).next = .token t' _ := hfirst
    rw [trees, run_peek_bind, kind_of_token hnext, ht', if_neg hopen, if_pos hadmits]
    refine run_shift_bind_eq_ok.mpr ⟨t', _, hfirst, ?_⟩
    rw [hrun]
    simp

/-- Trees end in front of a token that opens no group and is not admitted. -/
theorem TreesAgain.stopped {seps : List Terminal} {κ : Terminal} (hopen : ¬ (closer? κ).isSome)
    (hadmits : ¬ admits seps κ = true) : TreesAgain seps (n + 1) [] κ := by
  intro m hm x vs y taken hvs hscan hstop
  obtain ⟨m, rfl⟩ : ∃ j, m = j + 1 := ⟨m - 1, by omega⟩
  obtain rfl : vs = [] := by simpa [SameKinds] using hvs
  cases hscan
  have hkind : (Scan.mk taken x Expected.anything).next.kind = κ := hstop
  rw [trees, run_peek_bind, hkind, if_neg hopen, if_neg hadmits]
  rfl

/-- The tokens of a group and of trees are read again wherever they are found. Both at once, by
induction on the depth. -/
theorem group_trees_again (n : Nat) :
    (∀ s s', (group n).run s = .ok ((), s') → s'.expected = Expected.anything ∧
      ∃ o r ts, s.next = .token o r ∧ s'.taken = ts.reverse ++ o :: s.taken ∧
        Scanned r ts s'.rest ∧ GroupAgain n o ts) ∧
    ∀ seps s s', s.expected = Expected.anything → (trees seps n).run s = .ok ((), s') →
      s'.expected = Expected.anything ∧
      ∃ ts, s'.taken = ts.reverse ++ s.taken ∧ Scanned s.rest ts s'.rest ∧
        TreesAgain seps n ts s'.next.kind := by
  induction n with
  | zero => exact ⟨fun _ _ h => by simp [group] at h, fun _ _ _ _ h => by simp [trees] at h⟩
  | succ n ih =>
    refine ⟨fun s s' h => ?_, fun seps s s' he h => ?_⟩
    · rw [group, run_peek_bind] at h
      cases hk : closer? s.next.kind with
      | none => simp [hk] at h
      | some close =>
        rw [hk] at h
        obtain ⟨o, r, hnext, h⟩ := run_shift_bind_eq_ok.mp h
        obtain ⟨⟨⟩, s₁, htrees, h⟩ := run_bind_eq_ok.mp h
        obtain ⟨c, r', hnext', hc, h⟩ := run_token_bind_eq_ok.mp h
        obtain rfl : _ = s' := by simpa using h
        obtain ⟨he₁, ts, htaken, hts, hagain⟩ := ih.2 _ _ _ rfl htrees
        rw [kind_of_token hnext', hc] at hagain
        rw [kind_of_token hnext] at hk
        rw [Scan.next, he₁] at hnext'
        exact ⟨rfl, o, r, ts ++ [c], hnext, by simp [htaken],
          hts.append (.cons hnext' (.nil _)), hagain.enclosed hk hc⟩
    · rw [trees, run_peek_bind] at h
      split at h
      · rename_i hopen
        obtain ⟨⟨⟩, s₁, hgroup, h⟩ := run_bind_eq_ok.mp h
        obtain ⟨he₁, o, r, ts, hnext, htaken, hts, hagain⟩ := ih.1 _ _ hgroup
        obtain ⟨he', us, htaken', hus, hagain'⟩ := ih.2 _ _ _ he₁ h
        rw [kind_of_token hnext] at hopen
        rw [Scan.next, he] at hnext
        exact ⟨he', o :: (ts ++ us), by simp [htaken', htaken], .cons hnext (hts.append hus),
          hagain.followed hagain' hopen⟩
      · rename_i hopen
        split at h
        · rename_i hadmits
          obtain ⟨t, r, hnext, h⟩ := run_shift_bind_eq_ok.mp h
          obtain ⟨he', us, htaken', hus, hagain'⟩ := ih.2 _ _ _ rfl h
          rw [kind_of_token hnext] at hopen hadmits
          rw [Scan.next, he] at hnext
          exact ⟨he', t :: us, by simp [htaken'], .cons hnext hus,
            hagain'.shifted hopen hadmits⟩
        · rename_i hadmits
          obtain rfl : s = s' := by simpa using h
          exact ⟨he, [], rfl, .nil _, .stopped hopen hadmits⟩

end Grammar

/-! ## Array lengths -/

/-- Dropping the blanks behind a line of documentation at the end of tokens leaves one there. -/
theorem endsInLineDoc_trim {c : Char} (h : Scanned (Token.spelled (ts ++ [t]) ++ u) (ts ++ [t]) u)
    (hhead : (Token.spelled (ts ++ [t])).head? = some c) (hc : Text.isBlank c = false)
    (ht : t.isLineDoc) : EndsInLineDoc (Text.trim (Token.spelled (ts ++ [t]))) := by
  obtain ⟨y, hts, hlast⟩ := h.of_append
  cases hlast with
  | cons hlast hnil =>
    cases hnil
    obtain ⟨hslashes, hfirst⟩ := first_trimEnd_of_isLineDoc hlast ht
    obtain ⟨b, hb, -⟩ := Text.exists_trimEnd t.text
    have hy := (Next.of_eq_token hlast).1
    have htrim : Text.trim (Token.spelled (ts ++ [t])) =
        Token.spelled ts ++ (t.gap ++ Text.trimEnd t.text) := by
      have hspelled : Token.spelled (ts ++ [t]) = (Token.spelled ts ++ t.gap) ++
          (t.text ++ []) := by
        simp
      rw [Text.trim_eq_trimEnd hhead hc, hspelled,
        Text.trimEnd_append (by simp) ⟨'/', ht.2.subset (by simp), by decide⟩, List.append_assoc]
    generalize Text.trimEnd t.text = q at hslashes hfirst hb htrim
    -- The other tokens are found as before. Only the last one has become shorter.
    have hcut : Scanned (Token.spelled ts ++ (t.gap ++ q)) ts (t.gap ++ q) := by
      refine Scanned.cut (u := b ++ u) ?_
      have hsplit : t.gap ++ q ++ (b ++ u) = y := by
        rw [hy, hb]
        simp
      rw [List.append_assoc, hsplit]
      simpa [hy] using hts
    rw [htrim]
    refine ⟨ts, ⟨t.kind, t.gap, q⟩, hcut.append (.cons ?_ (.nil [])), ht.1, hslashes⟩
    simpa using (gap_of_token hlast).of_token (z := []) (by simpa using hfirst)

/-- A length that does not end in a line of documentation is kept as it is, and no line of
it is left open. -/
theorem endsLines_of_trim (h : Scanned (Token.spelled (t :: ts) ++ u) (t :: ts) u)
    (hgap : t.gap = []) (hdoc : ¬ EndsInLineDoc (Text.trim (Token.spelled (t :: ts)))) :
    EndsLines (t :: ts) ∧ Text.trim (Token.spelled (t :: ts)) = Token.spelled (t :: ts) := by
  -- No blank is dropped in front: the first token starts with a visible character.
  obtain ⟨c, hhead, hc⟩ : ∃ c, (Token.spelled (t :: ts)).head? = some c ∧
      Text.isBlank c = false := by
    cases h with
    | cons ht _ =>
      obtain ⟨-, v, -, hv⟩ := Next.of_eq_token ht
      obtain ⟨c, w, hw⟩ := List.exists_cons_of_ne_nil (Next.text_ne_nil_of_token ht)
      refine ⟨c, by simp [hgap, hw], not_isBlank_of_isVisible (isVisible_of_starts (t := v) ?_)⟩
      rw [hw] at hv
      exact starts_of_recognise (first_eq_some hv).2
  obtain ⟨ts', last, hts⟩ : ∃ ts' last, t :: ts = ts' ++ [last] := by
    rcases List.eq_nil_or_concat (t :: ts) with h | ⟨ts', last, h⟩
    · simp at h
    · exact ⟨ts', last, by simpa using h⟩
  rw [hts] at h hhead hdoc ⊢
  obtain ⟨y, -, hlast⟩ := h.of_append
  cases hlast with
  | cons hlast _ =>
    have hslashes : ¬ ['/', '/'] <+: last.text := fun hs =>
      hdoc (endsInLineDoc_trim h hhead hc (isLineDoc_of_token hlast hs))
    -- Nor behind: only the rest of a line can end in one.
    obtain ⟨d, hd, hvisible⟩ := visible_of_token hlast hslashes
    refine ⟨fun t' ht' => ?_, ?_⟩
    · obtain rfl : last = t' := by simpa using ht'
      exact hslashes
    · rw [Text.trim_eq_trimEnd hhead hc]
      refine Text.trimEnd_of_getLast? (c := d) ?_ (not_isBlank_of_isVisible hvisible)
      have hspelled : Token.spelled (ts' ++ [last]) =
          (Token.spelled ts' ++ last.gap) ++ last.text := by
        simp
      rw [hspelled, List.getLast?_append_of_ne_nil _ (Next.text_ne_nil_of_token hlast), hd]

namespace Grammar

open Reading

variable {n : Nat} {s s' : Scan}

/-- The tokens of an array length: how they are read again, and that they are found again in front
of the bracket. -/
theorem length_tokens {seps : List Terminal} (he : s.expected = Expected.anything)
    (h : (someTrees seps n).run s = .ok ((), s')) : s'.expected = Expected.anything ∧
    ∃ t us, s.Takes (t :: us) s' ∧ ((closer? t.kind).isSome || admits seps t.kind) = true ∧
      s.next.kind = t.kind ∧ TreesAgain seps n (t :: us) s'.next.kind ∧
      (¬ EndsInLineDoc (Text.trim (t.text ++ Token.spelled us)) →
        Text.trim (t.text ++ Token.spelled us) = t.text ++ Token.spelled us ∧
        ∀ v, Quiet s'.rest (']' :: v) → ∀ g, IsLayout g →
          Scanned (g ++ (t.text ++ Token.spelled us ++ ']' :: v)) (⟨t.kind, g, t.text⟩ :: us)
            (']' :: v)) := by
  have hlt := Advances.lt_of_run (fun {i} => advances_someTrees seps n) h
  rw [someTrees, run_peek_bind] at h
  split at h
  · rename_i hopen
    obtain ⟨he', ts, htaken, hscan, hagain⟩ := (group_trees_again n).2 seps s s' he h
    obtain ⟨t, us, rfl⟩ : ∃ t us, ts = t :: us := by
      cases ts with
      | nil => simp [htaken] at hlt
      | cons t us => exact ⟨t, us, rfl⟩
    have htakes : s.Takes (t :: us) s' := ⟨htaken, hscan.spelled⟩
    cases hscan with
    | cons ht hus =>
      have hy := hus.spelled
      subst hy
      have hkind : s.next.kind = t.kind := kind_of_token (by rw [Scan.next, he]; exact ht)
      refine ⟨he', t, us, htakes, hkind ▸ hopen, hkind, hagain, fun hdoc => ?_⟩
      -- The text of the length starts with its first token, without the gap in front of it.
      have halone : Scanned (Token.spelled (⟨t.kind, [], t.text⟩ :: us) ++ s'.rest)
          (⟨t.kind, [], t.text⟩ :: us) s'.rest := by
        refine .cons (y := Token.spelled us ++ s'.rest) ?_ hus
        simpa using of_text ht
      obtain ⟨hlines, htrim⟩ := endsLines_of_trim halone rfl (by simpa using hdoc)
      refine ⟨by simpa using htrim, fun v hv g hg => ?_⟩
      have hparts : Parts (Token.spelled (⟨t.kind, [], t.text⟩ :: us)) (']' :: v) := by
        intro d hd
        obtain rfl : ']' = d := by simpa using hd
        exact ⟨rfl, by simp, by simp⟩
      have hfront := halone.inFrontOf hlines hparts hv
      cases hfront with
      | cons hfirst hrest' =>
        have hy := hrest'.spelled
        subst hy
        refine .cons ?_ hrest'
        have := (gap_of_isLayout hg).of_token (κ := t.kind) (w := t.text)
          (z := Token.spelled us ++ ']' :: v) (by simpa using hfirst)
        simpa using this
  · simp at h

/-- The length of an array is read again in front of its bracket. -/
theorem length_again {seps : List Terminal} {c : Token} {r : List Char}
    (he : s.expected = Expected.anything) (h : (someTrees seps n).run s = .ok ((), s'))
    (hc : s'.next = .token c r) (hrsqb : c.kind = .rsqb) :
    s'.expected = Expected.anything ∧ s'.textFrom s.taken.length <:+: s.rest ∧
      (¬ EndsInLineDoc (Text.trim (s'.textFrom s.taken.length)) →
        Text.trim (s'.textFrom s.taken.length) = s'.textFrom s.taken.length ∧
        ∀ v, Quiet s'.rest (']' :: v) → ∀ g, IsLayout g → ∀ᶠ m in atTop,
          (someTrees seps m).Copies Expected.anything
            (g ++ (s'.textFrom s.taken.length ++ ']' :: v))
            (s'.textFrom s.taken.length) Expected.anything (']' :: v)) := by
  obtain ⟨he', t, us, ⟨htaken, hrest⟩, hopen, hkind, hagain, hscan⟩ := length_tokens he h
  have htext : s'.textFrom s.taken.length = t.text ++ Token.spelled us := by
    have := textFrom_latest t us s.taken s'.rest s'.expected
    rwa [← htaken] at this
  rw [htext]
  refine ⟨he', ⟨t.gap, s'.rest, by rw [hrest]; simp⟩, fun hdoc => ?_⟩
  obtain ⟨htrim, hscan⟩ := hscan hdoc
  refine ⟨htrim, fun v hv g hg => ?_⟩
  have hfound := hscan v hv g hg
  have hstop : (Next.of Expected.anything (']' :: v)).kind = s'.next.kind := by
    rw [hc]
    have := of_symbol (e := Expected.anything) (κ := .rsqb) (g := []) (z := v) (by decide)
      isLayout_nil
    rw [List.nil_append] at this
    exact (congrArg Next.kind this).trans hrsqb.symm
  filter_upwards [eventually_ge_atTop n] with m hm taken
  refine ⟨(), ⟨t.kind, g, t.text⟩, us, rfl, ?_⟩
  cases hfound with
  | cons hgap hus =>
    have hnext : (Scan.mk taken (g ++ (t.text ++ Token.spelled us ++ ']' :: v))
        Expected.anything).next.kind = t.kind :=
      kind_of_token (t := ⟨t.kind, g, t.text⟩) hgap
    rw [someTrees, run_peek_bind, hnext, if_pos hopen]
    exact hagain m hm _ (⟨t.kind, g, t.text⟩ :: us) _ taken rfl (.cons hgap hus) hstop

end Grammar

/-! ## Constants -/

/-- A literal, all of which was found as a token, in front of a break. -/
theorem recognise_literal {κ : Terminal} (hκ : κ ∈ [Terminal.number, .char, .string])
    (h : κ.recognise w = some w.length) (hz : Breaks z) : κ.recognise (w ++ z) = some w.length := by
  simp only [List.mem_cons, List.not_mem_nil, or_false] at hκ
  rcases hκ with rfl | rfl | rfl
  · obtain ⟨k, hk⟩ : ∃ k, number (w ++ z) = some k := by
      rw [← Option.isSome_iff_exists, number_isSome]
      have hsome : (number w).isSome := Option.isSome_iff_exists.mpr ⟨_, h⟩
      rw [number_isSome] at hsome
      cases w <;> simp_all
    have hle : k ≤ w.length := by
      cases hhead : z.head? with
      | none =>
        obtain rfl := List.head?_eq_none_iff.mp hhead
        simpa using (number_bounds hk).2
      | some c =>
        exact (number_within hk).le hhead (not_isTokenChar_of_isBreak (hz c (by simp [hhead])))
    have heq := (number_cut hk hle).symm.trans h
    exact hk.trans heq
  · exact char_grows h z
  · exact string_grows h z

/-- The class that a literal or a comment shows by how it starts. -/
def lead? : List Char → Option Lexeme
  | '/' :: _ => some .comment
  | '\'' :: _ => some (.terminal .char)
  | '"' :: _ => some (.terminal .string)
  | 'r' :: _ => some (.terminal .rawString)
  | 'b' :: '\'' :: _ => some (.terminal .char)
  | 'b' :: '"' :: _ => some (.terminal .string)
  | 'b' :: 'r' :: _ => some (.terminal .rawString)
  | c :: _ => if c.isDigit then some (.terminal .number) else none
  | [] => none

/-- Documentation starts like any comment. -/
def leadClass : Lexeme → Lexeme
  | .terminal .docComment => .comment
  | .terminal .innerDoc => .comment
  | m => m

/-- The classes that are told apart by how they start. -/
def leaders : List Lexeme :=
  [.terminal .docComment, .terminal .rawString, .terminal .innerDoc, .comment, .terminal .string,
    .terminal .char, .terminal .number]

theorem lead?_of_recognise {m : Lexeme} {s : List Char} {k : Nat} (hm : m ∈ leaders)
    (h : m.recognise s = some k) : lead? s = some (leadClass m) := by
  -- All kinds of comments have the same lead.
  have slash : ∀ {k}, Recogniser.comment s = some k → lead? s = some .comment := by
    intro k h
    rcases comment_eq_some.mp h with h | h <;> obtain ⟨r, j, rfl, -⟩ := after_eq_some.mp h <;> rfl
  simp only [leaders, List.mem_cons, List.not_mem_nil, or_false] at hm
  rcases hm with rfl | rfl | rfl | rfl | rfl | rfl | rfl
  · exact slash (comment_of_docComment h)
  · obtain ⟨p, hp, h⟩ := rawString_eq_some.mp h
    obtain ⟨r, j, rfl, -⟩ := after_eq_some.mp h
    simp only [rawOpenings, List.mem_cons, List.not_mem_nil, or_false] at hp
    rcases hp with rfl | rfl | rfl | rfl | rfl | rfl <;> rfl
  · exact slash (comment_of_innerDoc h)
  · exact slash h
  · rcases string_eq_some.mp h with h | h <;> obtain ⟨r, j, rfl, -⟩ := after_eq_some.mp h <;> rfl
  · rcases char_eq_some.mp h with h | h <;> obtain ⟨r, j, rfl, -⟩ := after_eq_some.mp h <;> rfl
  · have hsome : (number s).isSome := Option.isSome_iff_exists.mpr ⟨k, h⟩
    rw [number_isSome] at hsome
    cases s with
    | nil => simp at hsome
    | cons c r =>
      have hc : c.isDigit = true := by simpa using hsome
      unfold lead?
      split <;> simp_all [leadClass]

/-- Where a literal is expected, it is found. -/
theorem first_literal {e' : Expectation} {κ : Terminal}
    (hκ : κ ∈ [Terminal.number, .char, .string]) (h : κ.recognise w = some w.length) (he : κ ∈ e')
    (hz : Breaks z) : first e' (w ++ z) = some (.terminal κ, w.length) := by
  have hrec : (Lexeme.terminal κ).recognise (w ++ z) = some w.length := recognise_literal hκ h hz
  have hall : ∀ κ ∈ [Terminal.number, .char, .string], .terminal κ ∈ order ∧ κ ∉ Terminal.keywords ∧
      .terminal κ ∈ leaders ∧
        ∀ m ∈ before (.terminal κ), m ∈ leaders ∧ leadClass m ≠ leadClass (.terminal κ) := by
    decide
  obtain ⟨horder, hkw, hleader, hbefore⟩ := hall κ hκ
  refine first_eq_some_iff.mpr ⟨horder, by simp [tried, he, hkw], hrec, fun m hm htried => ?_⟩
  obtain ⟨hmem, hne⟩ := hbefore m hm
  cases hm' : m.recognise (w ++ z) with
  | none => rfl
  | some k =>
    -- no two classes that come before start alike
    have hlead := (lead?_of_recognise hmem hm').symm.trans (lead?_of_recognise hleader hrec)
    exact absurd (Option.some.inj hlead) hne

/-- A literal is found again under another expectation, and in front of another break. -/
theorem of_literal (e' : Expectation) (h : Next.of e x = .token t y)
    (ht : t.kind ∈ [Terminal.number, .char, .string]) (he : t.kind ∈ e') (hg : Gap e' g)
    (hz : Breaks z) : Next.of e' (g ++ (t.text ++ z)) = .token ⟨t.kind, g, t.text⟩ z := by
  have hall : ∀ κ ∈ [Terminal.number, .char, .string], κ ∉ Terminal.ident :: Terminal.keywords := by
    decide
  have hrec : t.kind.recognise t.text = some t.text.length :=
    recognise_cuts (.terminal t.kind) (first_eq_some (first_of_token h (hall _ ht))).2
      (Nat.le_refl _)
  refine hg.of_token ?_
  rw [Next.of_token (first_literal ht hrec he hz), List.take_left, List.drop_left, Terminal.settle,
    if_neg fun hi => hall _ ht (by simp [hi])]

namespace Grammar

open Reading

variable {n : Nat} {s s' : Scan}

/-- The tokens of a constant. -/
def constTokens (n : Nat) : Reading Unit := do
  match ← peek with
  | .number | .char | .string =>
    let _ ← shift Expected.afterArg
  | .minus =>
    let _ ← shift [.number]
    let _ ← token .number Expected.afterArg
  | .lbrace => group n
  | _ => refuse

theorem constText_eq (n : Nat) :
    constText n = (mark >>= fun first => constTokens n >>= fun _ => textFrom first) := by
  refine congrArg (Reading.count) (funext fun first => congrArg Reading.look (funext fun κ => ?_))
  cases κ with
  | minus =>
    change _ = (shift [.number] >>= fun _ => token .number Expected.afterArg >>=
      fun _ => pure ()) >>= _
    rw [Reading.bind_assoc]
    refine congrArg (shift [.number] >>= ·) (funext fun _ => ?_)
    rw [Reading.bind_assoc]
    rfl
  | _ => rfl

/-- What can start a constant. -/
def constStarts : List Terminal :=
  [.number, .char, .string, .minus, .lbrace]

/-- Where a constant may start: among arguments, and as the default of a parameter. -/
def constPlaces : List Expectation :=
  [Expected.genericArg, Expected.constDefault]

/-- The tokens between two scans can be written again as a constant, layout in front of them, in
front of a text that closes none of their brackets. -/
def ConstAgain (s s' : Scan) : Prop :=
  ∃ t us, s'.taken = (t :: us).reverse ++ s.taken ∧ t.text ++ Token.spelled us <:+: s.rest ∧
    ∀ z, Breaks z → Quiet s'.rest z → ∀ e ∈ constPlaces, ∀ g, IsLayout g →
      ∃ κ ∈ constStarts, (Next.of e (g ++ (t.text ++ Token.spelled us ++ z))).kind = κ ∧
      ∃ e', (∀ κ ∈ [Terminal.comma, .gt], finds e' κ = true) ∧ ∀ᶠ m in atTop,
        (constTokens m).Copies e (g ++ (t.text ++ Token.spelled us ++ z))
          (t.text ++ Token.spelled us) e' z

theorem finds_afterArg : ∀ κ ∈ [Terminal.comma, .gt], finds Expected.afterArg κ = true := by
  decide

theorem literal_again (hk : s.next.kind ∈ [Terminal.number, .char, .string])
    (h : (shift Expected.afterArg >>= fun _ => pure ()).run s = .ok ((), s')) :
    ConstAgain s s' := by
  obtain ⟨t, r, hnext, h⟩ := run_shift_bind_eq_ok.mp h
  obtain ⟨-, rfl⟩ := Prod.mk.inj (Except.ok.inj h)
  rw [kind_of_token hnext] at hk
  have hall : ∀ κ ∈ [Terminal.number, .char, .string], κ ∈ constStarts ∧
      ∀ e ∈ constPlaces, κ ∈ e := by
    decide
  refine ⟨t, [], rfl, ⟨t.gap, r, by rw [(Next.of_eq_token hnext).1]; simp⟩,
    fun z hz _ e he g hg => ?_⟩
  have hagain := of_literal e hnext hk ((hall _ hk).2 e he) (gap_of_isLayout hg) hz
  rw [Token.spelled_nil, List.append_nil]
  refine ⟨t.kind, (hall _ hk).1, congrArg Next.kind hagain, Expected.afterArg, finds_afterArg,
    .of_forall fun m taken => ⟨(), ⟨t.kind, g, t.text⟩, [], by simp, ?_⟩⟩
  have hkind : (Scan.mk taken (g ++ (t.text ++ z)) e).next.kind = t.kind :=
    congrArg Next.kind hagain
  rw [constTokens, run_peek_bind, hkind]
  simp only [List.mem_cons, List.not_mem_nil, or_false] at hk
  rcases hk with hk | hk | hk <;> rw [hk] <;> rw [hk] at hagain <;>
    exact run_shift_bind_eq_ok.mpr ⟨_, z, hagain, rfl⟩

theorem minus_again (hk : s.next.kind = .minus) (h : (shift [.number] >>= fun _ =>
    token .number Expected.afterArg >>= fun _ => pure ()).run s = .ok ((), s')) :
    ConstAgain s s' := by
  obtain ⟨t, r, hnext, h⟩ := run_shift_bind_eq_ok.mp h
  obtain ⟨t', r', hnext', hk', h⟩ := run_token_bind_eq_ok.mp h
  obtain ⟨-, rfl⟩ := Prod.mk.inj (Except.ok.inj h)
  rw [kind_of_token hnext] at hk
  have htext : t.text = Terminal.minus.spelling := by
    rw [Next.text_of_token hnext (by simp [hk, Terminal.symbols]), hk]
  change Next.of [.number] r = _ at hnext'
  have hall : ∀ e ∈ constPlaces, finds e .minus = true := by decide
  refine ⟨t, [t'], rfl, ⟨t.gap, r', ?_⟩, fun z hz _ e he g hg => ?_⟩
  · rw [(Next.of_eq_token hnext).1, (Next.of_eq_token hnext').1]
    simp
  have hagain' := of_literal [.number] hnext' (by simp [hk']) (by simp [hk'])
    (gap_of_token hnext') hz
  have hagain := of_symbol (e := e) (κ := .minus) (z := t'.gap ++ (t'.text ++ z)) (hall e he) hg
  rw [hk'] at hagain'
  have hsplit : g ++ (t.text ++ Token.spelled [t'] ++ z) =
      g ++ (Terminal.minus.spelling ++ (t'.gap ++ (t'.text ++ z))) := by simp [htext]
  rw [hsplit]
  refine ⟨.minus, by decide, congrArg Next.kind hagain, Expected.afterArg, finds_afterArg,
    .of_forall fun m taken => ⟨(), ⟨.minus, g, t.text⟩, [⟨.number, t'.gap, t'.text⟩], by simp, ?_⟩⟩
  have hkind : (Scan.mk taken
      (g ++ (Terminal.minus.spelling ++ (t'.gap ++ (t'.text ++ z)))) e).next.kind =
      .minus := congrArg Next.kind hagain
  rw [constTokens, run_peek_bind, hkind]
  refine run_shift_bind_eq_ok.mpr ⟨_, _, hagain, run_token_bind_eq_ok.mpr ⟨_, z, hagain', rfl, ?_⟩⟩
  rw [htext]
  rfl

/-- The last token of a block closes it. -/
theorem last_of_block (hk : s.next.kind = .lbrace) (h : (group n).run s = .ok ((), s')) :
    ∃ c taken, s'.taken = c :: taken ∧ c.kind = .rbrace ∧ c.text = Terminal.rbrace.spelling := by
  cases n with
  | zero => simp [group] at h
  | succ n =>
    rw [group, run_peek_bind, hk] at h
    obtain ⟨o, r, -, h⟩ := run_shift_bind_eq_ok.mp h
    obtain ⟨⟨⟩, s₁, -, h⟩ := run_bind_eq_ok.mp h
    obtain ⟨c, r', hnext, hc, h⟩ := run_token_bind_eq_ok.mp h
    obtain ⟨-, rfl⟩ := Prod.mk.inj (Except.ok.inj h)
    refine ⟨c, s₁.taken, rfl, hc, ?_⟩
    rw [Next.text_of_token hnext (by simp [hc, Terminal.symbols]), hc]

/-- The tokens of a block: how they are read again, and that those behind its opening are found
again in front of a break that closes none of its brackets. -/
theorem block_tokens (hk : s.next.kind = .lbrace) (h : (group n).run s = .ok ((), s')) :
    ∃ o us c, s.Takes (o :: (us ++ [c])) s' ∧ o.kind = .lbrace ∧ o.text = Terminal.lbrace.spelling ∧
      c.kind = .rbrace ∧ GroupAgain n o (us ++ [c]) ∧ ∀ z, Breaks z → Quiet s'.rest z →
        Scanned (Token.spelled (us ++ [c]) ++ z) (us ++ [c]) z := by
  obtain ⟨he, o, r, ts, hnext, htaken, hts, hagain⟩ := (group_trees_again n).1 s s' h
  obtain ⟨c, taken₀, hlast, hc, hctext⟩ := last_of_block hk h
  rw [kind_of_token hnext] at hk
  have htext : o.text = Terminal.lbrace.spelling := by
    rw [Next.text_of_token hnext (by simp [hk, Terminal.symbols]), hk]
  have hr := hts.spelled
  subst hr
  -- The last token that was taken is the closing brace.
  obtain ⟨us, rfl⟩ : ∃ us, ts = us ++ [c] := by
    rcases List.eq_nil_or_concat ts with rfl | ⟨us, c', rfl⟩
    · rw [hlast] at htaken
      obtain ⟨rfl, -⟩ := List.cons.inj htaken
      simp [hk] at hc
    · rw [hlast] at htaken
      simp only [List.concat_eq_append, List.reverse_append, List.reverse_singleton,
        List.cons_append, List.cons.injEq] at htaken
      exact ⟨us, by rw [htaken.1]; simp⟩
  refine ⟨o, us, c, ⟨by simp [htaken], ?_⟩, hk, htext, hc, hagain, fun z hz hquiet => ?_⟩
  · rw [(Next.of_eq_token hnext).1]
    simp
  have hspelled : Token.spelled (us ++ [c]) = (Token.spelled us ++ c.gap) ++ ['\x7d'] := by
    simp [hctext, Terminal.spelling]
  have hend : (Token.spelled (us ++ [c])).getLast? = some '\x7d' := by
    rw [hspelled, List.getLast?_concat]
  refine hts.inFrontOf ?_ (fun d hd => ⟨hz d hd, ?_, ?_⟩) hquiet
  · intro t ht
    obtain rfl : c = t := by simpa using ht
    simp [hctext, Terminal.spelling]
  · rw [hend]
    simp
  · rw [hend]
    simp

theorem block_again (hk : s.next.kind = .lbrace) (h : (group n).run s = .ok ((), s')) :
    ConstAgain s s' := by
  obtain ⟨o, us, c, ⟨htaken, hrest⟩, hkind, htext, -, hagain, hfound⟩ := block_tokens hk h
  have hall : ∀ e ∈ constPlaces, finds e .lbrace = true := by decide
  refine ⟨o, us ++ [c], htaken, ⟨o.gap, s'.rest, by rw [hrest]; simp⟩,
    fun z hz hquiet e he g hg => ?_⟩
  have hscan := hfound z hz hquiet
  have hopen := of_symbol (e := e) (κ := .lbrace)
    (z := Token.spelled (us ++ [c]) ++ z) (hall e he) hg
  rw [htext, List.append_assoc]
  refine ⟨.lbrace, by decide, congrArg Next.kind hopen, Expected.anything, by decide, ?_⟩
  filter_upwards [eventually_ge_atTop n] with m hm taken
  refine ⟨(), ⟨.lbrace, g, Terminal.lbrace.spelling⟩, us ++ [c], rfl, ?_⟩
  have hnext : (Scan.mk taken
      (g ++ (Terminal.lbrace.spelling ++ (Token.spelled (us ++ [c]) ++ z))) e).next.kind =
      .lbrace := congrArg Next.kind hopen
  rw [constTokens, run_peek_bind, hnext]
  have := hagain m hm _ _ _ _ (us ++ [c]) z taken hopen hkind.symm rfl hscan
  rw [List.reverse_cons, List.append_assoc]
  exact this

/-- A constant is read again in front of another break that closes none of its brackets. -/
theorem constText_again {a : String} (h : (constText n).run s = .ok (a, s')) :
    a.toList <:+: s.rest ∧ ∀ z, Breaks z → Quiet s'.rest z → ∀ e ∈ constPlaces, ∀ g, IsLayout g →
      (Next.of e (g ++ (a.toList ++ z))).kind ∈ constStarts ∧
      ∃ e', (∀ κ ∈ [Terminal.comma, .gt], finds e' κ = true) ∧ ∀ᶠ m in atTop,
        (constText m).Reads e (g ++ (a.toList ++ z)) a e' z := by
  rw [constText_eq, run_mark_bind] at h
  obtain ⟨⟨⟩, s₁, htokens, h⟩ := run_bind_eq_ok.mp h
  obtain ⟨htext, rfl⟩ := Prod.mk.inj (Except.ok.inj h)
  -- A literal, a number behind a minus, or a block.
  have hagain : ConstAgain s s₁ := by
    rw [constTokens, run_peek_bind] at htokens
    split at htokens
    · rename_i hk
      exact literal_again (by simp [hk]) htokens
    · rename_i hk
      exact literal_again (by simp [hk]) htokens
    · rename_i hk
      exact literal_again (by simp [hk]) htokens
    · rename_i hk
      exact minus_again hk htokens
    · rename_i hk
      exact block_again hk htokens
    · simp at htokens
  obtain ⟨t, us, htaken, hclosed, hagain⟩ := hagain
  have hfrom := textFrom_latest t us s.taken s₁.rest s₁.expected
  rw [← htaken] at hfrom
  obtain rfl : String.ofList (t.text ++ Token.spelled us) = a := by rw [← htext, ← hfrom]
  rw [String.toList_ofList]
  refine ⟨hclosed, fun z hz hquiet e he g hg => ?_⟩
  obtain ⟨κ, hκ, hkind, e', hfinds, hcopies⟩ := hagain z hz hquiet e he g hg
  refine ⟨hkind ▸ hκ, e', hfinds, ?_⟩
  filter_upwards [hcopies] with m hm
  rw [constText_eq]
  exact hm.bind (f := Pure.pure) (.pure _)

end Grammar
end ShadowImpl
