import ShadowImpl.Proofs.EntryPoints
import ShadowImpl.Proofs.Insertions
import ShadowImpl.Proofs.Spans

/-!
# What stands in bodies

A raw string or a comment that is put between two tokens of the body of a method changes the text of
that body and nothing else in the block.
-/

namespace ShadowImpl

variable {w x y g : List Char} {t : Token} {ts us : List Token}

/-! ## Blocks -/

namespace Grammar

open Reading

variable {e : Expectation} {n : Nat} {s' : Scan} {b : ImplBlock Extent} {is js : List (Item Extent)}
  {m : Method Extent}

theorem unplaced_endedAt (b : ImplBlock Extent) (is : List (Item Extent)) (s : Scan) :
    (endedAt b is s).unplaced = { b.unplaced with items := is.map Item.unplaced } := rfl

/-- The parts of a block around a point in the body of a method: the tokens `front` in front of the
body, the tokens of the body and the tokens `back` behind it. -/
theorem exists_point (h : (whole implBlock n).run (.start e x) = .ok (b, s'))
    (hitems : b.items = is ++ .method m :: js) (htokens : s'.taken.reverse = ts ++ t :: us)
    (hgap : g <+: t.gap)
    (hlo : (Token.spelled (s'.taken.reverse.take m.place.last)).length <
      (Token.spelled ts ++ g).length + m.body.toList.length)
    (hhi : (Token.spelled ts ++ g).length <
      (Token.spelled (s'.taken.reverse.take m.place.last)).length) :
    ∃ b₀ m₀ s₁ s₂ front o xs ys back, is.length < n ∧
      (upToBody is.length n).run (.start e x) = .ok ((b₀, is, m₀), s₁) ∧
      (methodBody (n - is.length - 1)).run s₁ = .ok (m.body, s₂) ∧
      m = withBody m₀ m.body s₂.taken.length ∧
      (blockRest b₀ (is ++ [.method m]) (n - is.length - 1)).run s₂ = .ok (b, s') ∧
      (Scan.start e x).Takes front s₁ ∧ s₁.Takes (o :: (xs ++ t :: ys)) s₂ ∧ s₂.Takes back s' ∧
      ts = front ++ o :: xs ∧ s₁.rest = o.gap ++ (m.body.toList ++ s₂.rest) := by
  obtain ⟨b₀, m₀, s₁, s₂, hlt, hup, hbody, hm, hrest⟩ := exists_upToBody h hitems
  obtain ⟨o, bs, htakes, hbodyText, -⟩ := methodBody_takes hbody
  obtain ⟨front, hfront, -⟩ := takes_of_run (upToBody is.length n) (.start e x)
  obtain ⟨back, hback, -⟩ := takes_of_run (blockRest b₀ (is ++ [.method m]) (n - is.length - 1)) s₂
  have hfront := hfront _ _ hup
  have hback := hback _ _ hrest
  have hs₂ : s₂.taken.reverse = front ++ o :: bs := by simp [htakes.1, hfront.1, Scan.start]
  have hall : s'.taken.reverse = s₂.taken.reverse ++ back := by simp [hback.1]
  -- The tokens up to the end of the method are those in front of its body and those of the body.
  have hstop : s'.taken.reverse.take m.place.last = front ++ o :: bs := by
    have hlast : m.place.last = s₂.taken.reverse.length := by
      rw [hm, List.length_reverse]
      rfl
    rw [hall, hlast, List.take_left, hs₂]
  have hs₁rest : s₁.rest = o.gap ++ (m.body.toList ++ s₂.rest) := by
    rw [hbodyText, String.toList_ofList]
    exact htakes.rest_eq
  have hlen : (Token.spelled (front ++ o :: bs)).length =
      (Token.spelled front ++ o.gap).length + m.body.toList.length := by
    have := congrArg List.length (htakes.2.symm.trans hs₁rest)
    simp only [Token.spelled_append, List.length_append] at this ⊢
    omega
  rw [hstop] at hlo hhi
  -- Between the lengths of these two lies the point.
  obtain ⟨xs, ys, rfl, rfl, -⟩ : ∃ xs ys, ts = front ++ o :: xs ∧ bs = xs ++ t :: ys ∧
      us = ys ++ back :=
    Token.split_inside (by rw [← htokens, hall, hs₂]; simp) hgap (by omega) hhi
  exact ⟨b₀, m₀, s₁, s₂, front, o, xs, ys, back, hlt, hup, hbody, hm, hrest, hfront,
    htakes, hback, rfl, hs₁rest⟩

/-- The text of a block with an insertion, as far as it starts with the same tokens and ends in
front of the same text. -/
theorem inserted_text {b' : ImplBlock Extent} {s'' : Scan} {o : Token} {front vs vs' : List Token}
    (h : (whole implBlock n).run (.start e (x ++ y)) = .ok (b, s'))
    (h' : (whole implBlock n).run (.start e (x ++ ' ' :: (w ++ ' ' :: y))) = .ok (b', s''))
    (htokens : s'.taken.reverse = front ++ o :: vs)
    (htokens' : s''.taken.reverse = front ++ o :: vs') (hrest : s''.rest = s'.rest)
    (hx : (Token.spelled front ++ o.gap).length ≤ x.length) (hy : s'.rest.length ≤ y.length) :
    Inserted x y w b.text b'.text := by
  obtain ⟨f, fs, hf⟩ : ∃ f fs, front ++ [o] = f :: fs := by cases front <;> simp
  have hcons : ∀ vs, front ++ o :: vs = f :: (fs ++ vs) := by
    intro vs
    rw [← List.cons_append, ← hf, List.append_assoc]
    rfl
  -- The text of a block starts behind the gap of its first token, which both have.
  have htext : ∀ {u : List Char} {b : ImplBlock Extent} {s : Scan} {vs : List Token},
      (whole implBlock n).run (.start e u) = .ok (b, s) → s.taken.reverse = front ++ o :: vs →
        u = f.gap ++ (b.text.toList ++ s.rest) := by
    intro u b s vs hrun hs
    obtain ⟨new, htakes, -⟩ := takes_of_run (whole implBlock n) (.start e u)
    have htakes := htakes _ _ hrun
    obtain rfl : new = f :: (fs ++ vs) := by
      rw [← hcons, ← hs, htakes.1]
      simp [Scan.start]
    rw [(whole_ends hrun).1, String.toList_ofList]
    exact htakes.rest_eq
  refine inserted_of_append (htext h htokens) (hrest ▸ htext h' htokens') ?_ hy
  refine Nat.le_trans ?_ hx
  cases front with
  | nil =>
    obtain rfl := (List.cons.inj hf).1
    simp
  | cons f' front =>
    obtain rfl := (List.cons.inj hf).1
    simp [Token.spelled_cons]

/-- A block with a method is read again with an insertion into the body of that method. -/
theorem whole_insert (hw : Inert w) (h : (whole implBlock n).run (.start e (x ++ y)) = .ok (b, s'))
    (hitems : b.items = is ++ .method m :: js) (htokens : s'.taken.reverse = ts ++ t :: us)
    (hx : x = Token.spelled ts ++ g) (hgap : g <+: t.gap) (hg : Gap Expected.anything g)
    (hlo : (Token.spelled (s'.taken.reverse.take m.place.last)).length < x.length +
      m.body.toList.length)
    (hhi : x.length < (Token.spelled (s'.taken.reverse.take m.place.last)).length)
    (hmay : MayFollow ts g y (' ' :: (w ++ ' ' :: y)))
    (hn : 16 * (x ++ y).length + is.length + s'.taken.length + 20 ≤ n) :
    ∃ b' s'' body', (whole implBlock n).run (.start e (x ++ ' ' :: (w ++ ' ' :: y))) =
      .ok (b', s'') ∧ Inserted x y w m.body body' ∧ Inserted x y w b.text b'.text ∧ b'.unplaced =
        { b.unplaced with items :=
          (is ++ .method { m with body := body' } :: js).map Item.unplaced } := by
  obtain ⟨b₀, m₀, s₁, s₂, front, o, xs, ys, back, hlt, hup, hbody, hm, hrest, hfront,
    htakes, hback, rfl, hs₁rest⟩ := exists_point h hitems htokens hgap (hx ▸ hlo) (hx ▸ hhi)
  have hxy : x ++ y = Token.spelled front ++ s₁.rest := hfront.2
  have hs₁ : s₁.taken.reverse = front := by simp [hfront.1, Scan.start]
  have hall : s'.taken.reverse = front ++ o :: (xs ++ t :: ys ++ back) := by
    simp [hback.1, htakes.1, hs₁]
  have hr : s₁.rest = o.gap ++ (o.text ++ (Token.spelled xs ++ (g ++ y))) := by
    refine List.append_cancel_left (hxy.symm.trans ?_)
    simp [hx, Token.spelled_append, Token.spelled_cons]
  have hdepth : 16 * (x ++ y).length + (xs.length + ys.length) + 20 ≤ n - is.length - 1 := by
    have := congrArg List.length hall
    simp only [List.length_append, List.length_reverse, List.length_cons] at this hn ⊢
    omega
  have hs₂le : s₂.rest.length ≤ (x ++ y).length := by
    rw [hxy, List.length_append]
    exact htakes.rest_le.trans (Nat.le_add_left _ _)
  -- The body is read again, then what stands in front of it, then what stands behind it.
  obtain ⟨he, hway, body', us', hbody', hrest'⟩ :=
    methodBody_insert hw hbody htakes hr hg hmay.of_append (by omega)
  obtain ⟨front', hfront', hagain⟩ := run_before (by rfl) hg hup hway
  obtain rfl : front' = front := hfront'.takes.unique hfront
  have hup' := hagain hmay
  rw [show (Scan.start e (x ++ y)).before (front' ++ o :: xs) (g ++ ' ' :: (w ++ ' ' :: y)) =
    .start e (x ++ ' ' :: (w ++ ' ' :: y)) by simp [Scan.before, Scan.start, hx]] at hup'
  have hsame : SameRest s₂ ⟨us'.reverse ++ o :: s₁.taken, s₂.rest, Expected.anything⟩ := ⟨he, rfl⟩
  obtain ⟨js₀, js', s₃, hb, hjs, hs₃, hrun⟩ := blockRest_of_sameRest hsame hrest (by omega)
    (is ++ [.method (withBody m₀ body' (us'.reverse ++ o :: s₁.taken).length)])
  have hwhole := whole_of_upToBody hlt hup' hbody' hrun
  have hnew : x ++ ' ' :: (w ++ ' ' :: y) =
      (Token.spelled front' ++ o.gap) ++ (body'.toList ++ s₂.rest) := by
    rw [List.append_assoc, ← hrest', hx]
    simp [Scan.before, Token.spelled_append, Token.spelled_cons]
  have hold : x ++ y = (Token.spelled front' ++ o.gap) ++ (m.body.toList ++ s₂.rest) := by
    rw [List.append_assoc, ← hs₁rest, hxy]
  have ha : (Token.spelled front' ++ o.gap).length ≤ x.length := by
    simp [hx, Token.spelled_append, Token.spelled_cons]
  have hy : s₂.rest.length ≤ y.length := by
    have := congrArg List.length (htakes.2.symm.trans hr)
    have := hgap.length_le
    simp only [Token.spelled_append, Token.spelled_cons, List.length_append] at *
    omega
  refine ⟨_, s₃, body', hwhole, inserted_of_append hold hnew ha hy, ?_, ?_⟩
  · obtain ⟨back', hback', -⟩ := takes_of_run
      (blockRest b₀ (is ++ [.method (withBody m₀ body' (us'.reverse ++ o :: s₁.taken).length)])
        (n - is.length - 1)) ⟨us'.reverse ++ o :: s₁.taken, s₂.rest, Expected.anything⟩
    have htokens' : s₃.taken.reverse = front' ++ o :: (us' ++ back') := by
      simp [(hback' _ _ hrun).1, hs₁]
    exact inserted_text h hwhole hall htokens' hs₃ ha (hback.rest_le.trans hy)
  · obtain rfl : js₀ = js := by
      have : is ++ .method m :: js₀ = is ++ .method m :: js := by
        rw [← hitems, hb]
        simp [endedAt]
      simpa using this
    have hitems' : (is ++
      [Item.method (withBody m₀ body' (us'.reverse ++ o :: s₁.taken).length)] ++ js').map
        Item.unplaced = (is ++ Item.method { m with body := body' } :: js₀).map Item.unplaced := by
      rw [hm]
      simp [hjs]
      rfl
    rw [hb, unplaced_endedAt, unplaced_endedAt, hitems']

end Grammar

/-! ## Sources -/

theorem Item.unplaced_map {σ τ : Type} (f : σ → τ) (i : Item σ) :
    (i.map f).unplaced = i.unplaced := by
  rw [unplaced, i.map_map]
  rfl

/-- `x` ends between two of the tokens that a text is read from: behind `ts` and the part `g` of the
gap in front of `t`, and not in a comment. -/
structure Token.EndsBetween (ts : List Token) (t : Token) (g x : List Char) : Prop where
  text : x = spelled ts ++ g
  gap : g <+: t.gap
  passed : Gap Expected.anything g
  line : g = [] → EndsLines ts

namespace Source

variable {s : Source} {b : ImplBlock Location} {b₀ : ImplBlock Extent}
    {is js : List (Item Location)}
  {m : Method Location}

/-- A raw string with at most two hashes, or a comment without another one inside, can be put
between any two tokens of the body of a method, unless it closes something that is left open in
front. The block is the same then, except for the text of this body. -/
theorem body_opaque (hregion : s.region = none) (htext : s.text.toList = x ++ y)
    (h : s.implBlock = .ok b) (hitems : b.items = is ++ .method m :: js)
    (hread : s.ReadBlock b₀ (ts ++ t :: us)) (hx : Token.EndsBetween ts t g x)
    (hlo : m.place.stop - m.body.toList.length < x.length) (hhi : x.length < m.place.stop)
    (hw : Closed w) (hfree : Harmless ts g w) :
    ∃ b' body', Source.implBlock ⟨s.file, String.ofList (x ++ ' ' :: (w ++ ' ' :: y)),
      none⟩ = .ok b' ∧ Inserted x y w m.body body' ∧ Inserted x y w b.text b'.text ∧ b'.unplaced =
        { b.unplaced with items :=
          (is ++ .method { m with body := body' } :: js).map Item.unplaced } := by
  obtain ⟨b₁, s', hrun, rfl⟩ := (implBlock_eq_ok hregion).mp h
  have hchars : s.chars = s.text.toList := by rw [chars, hregion]
  have htokens : s'.taken.reverse = ts ++ t :: us := by
    rw [ReadBlock, Reading.parse_eq, hchars, hrun] at hread
    exact congrArg Parsed.tokens (Except.ok.inj hread)
  obtain ⟨is₁, rest, hsplit, rfl, hrest⟩ := List.map_eq_append_iff.mp hitems
  obtain ⟨i, js₁, rfl, hi, rfl⟩ := List.map_eq_cons_iff.mp hrest
  obtain ⟨m₁, rfl, rfl⟩ : ∃ m₁, i = .method m₁ ∧ m = m₁.map (Extent.location s.file s.text.toList
      (Token.spans 0 s'.taken.reverse).toArray) := by
    cases i with
    | method m₁ => exact ⟨m₁, rfl, (Item.method.inj hi).symm⟩
    | verbatim v => simp [Item.map] at hi
  -- The method stops where its last token does.
  have hplaced : m₁.place.Proper s'.taken.reverse := by
    obtain ⟨himpl, -⟩ := Grammar.whole_ok_iff.mp hrun
    exact ((Grammar.implBlock_placed himpl).items (.method m₁) (by simp [hsplit])).proper
  have hstop : (m₁.map (Extent.location s.file s.text.toList
      (Token.spans 0 s'.taken.reverse).toArray)).place.stop =
        (Token.spelled (s'.taken.reverse.take m₁.place.last)).length := by
    rw [Extent.spelled_take_last hplaced]
    exact congrArg Location.stop (Extent.located_eq hplaced s.file s.text.toList)
  have hbody₁ : (m₁.map (Extent.location s.file s.text.toList
      (Token.spans 0 s'.taken.reverse).toArray)).body = m₁.body := rfl
  rw [hstop, hbody₁] at hlo
  rw [hstop] at hhi
  rw [htext] at hrun
  -- One depth for both texts.
  obtain ⟨n, hn⟩ : ∃ n, n = depth (x ++ y) + depth (x ++ ' ' :: (w ++ ' ' :: y)) + is₁.length +
    s'.taken.length + 20 := ⟨_, rfl⟩
  simp only [depth] at hrun hn
  have hdeep := Grammar.whole_depth hrun (m := n) (by omega) (by omega)
  obtain ⟨b', s'', body', hrun', hbody, hblock, hsame⟩ :=
    Grammar.whole_insert hw.inert hdeep hsplit htokens hx.text hx.gap hx.passed
    (by omega) (by omega) (hfree.mayFollow hx.line) (by omega)
  have hrun'' := Grammar.whole_depth hrun' (m := depth (x ++ ' ' :: (w ++ ' ' :: y))) (by omega)
    (by simp only [depth]; omega)
  refine ⟨_, body', (implBlock_eq_ok rfl).mpr ⟨b', s'', ?_, rfl⟩, hbody, hblock, ?_⟩
  · simpa using hrun''
  · rw [ImplBlock.unplaced_map, ImplBlock.unplaced_map, hsame]
    have hmap := Item.unplaced_map (Extent.location s.file s.text.toList
      (Token.spans 0 s'.taken.reverse).toArray)
    simp only [List.map_append, List.map_map, List.map_cons, Function.comp_def, hmap]
    exact congrArg (fun i => { b₁.unplaced with
      items := is₁.map Item.unplaced ++ i :: js₁.map Item.unplaced })
        (hmap (.method { m₁ with body := body' })).symm

/-- A raw string with a brace in it, in front of the brace that closes a body. -/
theorem body_opaque_raw : ∃ b m b' body',
    Source.implBlock ⟨"a.rs", "impl X \x7b fn f() \x7b g(); \x7d \x7d", none⟩ = .ok b ∧
    b.items = [.method m] ∧
    Source.implBlock ⟨"a.rs", "impl X \x7b fn f() \x7b g(); r#\"\x7d\"#  \x7d \x7d",
      none⟩ = .ok b' ∧
    Inserted "impl X \x7b fn f() \x7b g();".toList " \x7d \x7d".toList
      "r#\"\x7d\"#".toList m.body body' ∧
    b'.unplaced = { b.unplaced with items :=
      [Item.unplaced (.method { m with body := body' })] } := by
  let s : Source := ⟨"a.rs", "impl X \x7b fn f() \x7b g(); \x7d \x7d", none⟩
  have hitems : s.implBlock.toOption.map (fun b => (b.items.length, b.methods.map fun m =>
      (m.place.stop, m.body.toList))) = some (1, [(24, "\x7b g(); \x7d".toList)]) := by
    decide +kernel
  obtain ⟨b, hb, hboth⟩ := exists_of_map hitems
  obtain ⟨hone, hmethods⟩ := Prod.mk.inj hboth
  obtain ⟨i, hi⟩ := List.length_eq_one_iff.mp hone
  obtain ⟨m, rfl, hstop, hbody⟩ : ∃ m, i = .method m ∧ m.place.stop = 24 ∧
      m.body.toList = "\x7b g(); \x7d".toList := by
    rw [ImplBlock.methods, hi] at hmethods
    cases i with
    | method m => simpa using hmethods
    | verbatim v => simp at hmethods
  -- The tokens in front of the point, which lies in front of the closing brace.
  let ts : List Token := [⟨.kwImpl, [], "impl".toList⟩, ⟨.ident, [' '], ['X']⟩,
    ⟨.lbrace, [' '], ['\x7b']⟩, ⟨.kwFn, [' '], "fn".toList⟩, ⟨.ident, [' '], ['f']⟩,
    ⟨.lpar, [], ['(']⟩, ⟨.rpar, [], [')']⟩, ⟨.lbrace, [' '], ['\x7b']⟩, ⟨.ident, [' '], ['g']⟩,
    ⟨.lpar, [], ['(']⟩, ⟨.rpar, [], [')']⟩, ⟨.semi, [], [';']⟩]
  have htokens : (Reading.parse Grammar.implBlock Expected.block s.chars).toOption.map
      Parsed.tokens = some (ts ++ ⟨.rbrace, [' '], ['\x7d']⟩ :: [⟨.rbrace, [' '], ['\x7d']⟩]) := by
    decide +kernel
  obtain ⟨b₀, us, hparse, -⟩ := exists_parsed hb
  rw [hparse] at htokens
  obtain rfl := Option.some.inj htokens
  have hclosed : Closed (['r'] ++ (List.replicate 1 '#' ++ '"' :: (['\x7d'] ++ rawEnd 1))) :=
    .raw (by decide) (by decide) (by decide)
  obtain ⟨b', body', hb', hins, -, hsame⟩ := body_opaque (s := s)
    (x := "impl X \x7b fn f() \x7b g();".toList) (y := " \x7d \x7d".toList)
    (w := "r#\"\x7d\"#".toList) rfl (by decide) hb
    (show b.items = [] ++ .method m :: [] from hi) hparse
    ⟨by decide, List.nil_prefix, .nil, fun _ => by rw [EndsLines]; decide⟩
    (by rw [hstop, hbody]; decide) (by rw [hstop]; decide) hclosed
    (harmless_of_starts (by decide) _ _)
  exact ⟨b, m, b', body', hb, hi, hb', hins, hsame⟩

/-- A raw string with three hashes and a quote in it: not every literal can be put into a body. -/
theorem body_not_opaque :
    ∃ c w : List Char, ¬ rawEnd 3 <:+: c ∧ w = "r###\"".toList ++ (c ++ rawEnd 3) ∧
    (Source.implBlock ⟨"<input>", "impl Foo \x7b fn f() \x7b \x7d \x7d", none⟩).isOk = true ∧
    (Source.implBlock ⟨"<input>", String.ofList ("impl Foo \x7b fn f() \x7b".toList ++
      ' ' :: (w ++ ' ' :: " \x7d \x7d".toList)), none⟩).isOk = false :=
  ⟨['"', '\x7d'], "r###\"\"\x7d\"###".toList, by decide, by decide,
    by decide +kernel, by decide +kernel⟩

end Source

end ShadowImpl
