import ShadowImpl.Proofs.Removal

/-!
# A block without its marker

When an attribute in brackets is removed from a text that is an impl block, the attributes in front
of it are read as before, up to a token that stood behind it. From there on both texts are the same,
so the block is the same but for the attribute and for its places.
-/

namespace ShadowImpl

variable {s s' s₁ s₂ : Scan} {x : List Char} {t : Token} {n m k : Nat} {a : Attribute Extent}
  {as bs : List (Attribute Extent)} {b : ImplBlock Extent}

namespace Grammar

open Reading

/-! ## Where attributes end -/

/-- A documentation comment ends in a slash, or with its line. -/
theorem docComment_ends (h : s.next = .token t x) (ht : t.kind = .docComment) :
    t.text.getLast? = some '/' ∨ Text.endsLine x = true := by
  obtain ⟨-, v, -, hv⟩ := Next.of_eq_token h
  have hdoc := (docComment_of_token h ht).1
  by_cases hslashes : ['/', '/'] <+: t.text
  · exact .inr (endsLine_of_first hv hslashes)
  · left
    have hcut := Recogniser.docComment_cuts hdoc (Nat.le_refl _)
    rcases Recogniser.docComment_eq_some.mp hcut with ⟨r, hr, -⟩ | ⟨r, j, hr, -, -, hj, hlen⟩
    · exact absurd ⟨'/' :: r, hr.symm⟩ hslashes
    · obtain ⟨p, hp⟩ := through_suffix hj
      have hwhole : r.take j = r := List.take_of_length_le (by simp [hr] at hlen; omega)
      rw [hr, ← hwhole, ← hp]
      simp [List.getLast?_cons, List.getLast?_append]

theorem oneAttribute_ends (h : (oneAttribute n).run s = .ok (a, s₁)) (hx : s.rest = x ++ s₁.rest) :
    x.getLast? = some ']' ∨ x.getLast? = some '/' ∨ Text.endsLine s₁.rest = true := by
  rcases oneAttribute_eq_ok.mp h with ⟨hkind, h⟩ | ⟨-, h⟩
  · obtain ⟨t, r, hnext, rfl, -⟩ := docAttribute_eq_ok.mp h
    rw [kind_of_token hnext] at hkind
    obtain rfl : x = t.gap ++ t.text :=
      List.append_cancel_right (hx.symm.trans (Next.of_eq_token hnext).1)
    rw [List.getLast?_append_of_ne_nil _ (Next.text_ne_nil_of_token hnext)]
    exact .inr (docComment_ends hnext hkind)
  · obtain ⟨m, s₂, t, r, hopened, hnext, ht, rfl, -⟩ := bracketed_eq_ok.mp h
    obtain ⟨new, hok, -⟩ := takes_of_run (opened n) s
    have hrest := (hok m s₂ hopened).2
    rw [(Next.of_eq_token hnext).1, text_of_rsqb hnext ht, ← List.append_assoc] at hrest
    obtain rfl : x = Token.spelled new ++ (t.gap ++ [']']) :=
      List.append_cancel_right (hx.symm.trans hrest)
    left
    simp [List.getLast?_append]

theorem Ran.ends (h : Ran n s as m s₁) (hx : s.rest = x ++ s₁.rest) :
    x = [] ∨ x.getLast? = some ']' ∨ x.getLast? = some '/' ∨ Text.endsLine s₁.rest = true := by
  induction h generalizing x with
  | nil n s =>
    left
    simpa using hx
  | @cons n m s s₂ s₁ a as ha hran ih =>
    right
    obtain ⟨-, x₁, -, hrest⟩ := oneAttribute_run ha
    obtain ⟨x₂, hrest₂⟩ := hran.rest
    obtain rfl : x = x₁ ++ x₂ := by
      rw [hrest, hrest₂, ← List.append_assoc] at hx
      exact (List.append_cancel_right hx).symm
    by_cases hx₂ : x₂ = []
    · subst hx₂
      rw [List.append_nil]
      rw [List.nil_append] at hrest₂
      rw [← hrest₂]
      exact oneAttribute_ends ha hrest
    · rw [List.getLast?_append_of_ne_nil _ hx₂]
      exact (ih hrest₂).resolve_left hx₂

/-! ## A block from one of its attributes on -/

/-- The rest of a block behind the attributes `as`. -/
def blockFrom (as : List (Attribute Extent)) (k n : Nat) : Reading (ImplBlock Extent) := do
  let bs ← attributes k
  let b ← blockAfter (as ++ bs) 0 n
  finish
  return b

theorem blockFrom_eq_ok : (blockFrom as k n).run s = .ok (b, s') ↔
    ∃ bs s₁ s₂, (attributes k).run s = .ok (bs, s₁) ∧
      (blockAfter (as ++ bs) 0 n).run s₁ = .ok (b, s₂) ∧ finish.run s₂ = .ok ((), s') := by
  rw [blockFrom]
  constructor
  · intro h
    obtain ⟨bs, s₁, hbs, h⟩ := run_bind_eq_ok.mp h
    obtain ⟨b', s₂, hb, h⟩ := run_bind_eq_ok.mp h
    obtain ⟨⟨⟩, s₃, hfinish, h⟩ := run_bind_eq_ok.mp h
    obtain ⟨rfl, rfl⟩ : b' = b ∧ s₃ = s' := by simpa using h
    exact ⟨bs, s₁, s₂, hbs, hb, hfinish⟩
  · rintro ⟨bs, s₁, s₂, hbs, hb, hfinish⟩
    refine run_bind_eq_ok.mpr ⟨bs, s₁, hbs, run_bind_eq_ok.mpr ⟨b, s₂, hb, ?_⟩⟩
    exact run_bind_eq_ok.mpr ⟨(), s', hfinish, rfl⟩

theorem whole_eq_ok {e : Expectation} : (whole implBlock n).run (.start e x) = .ok (b, s') ↔
    (blockFrom [] n n).run (.start e x) = .ok (b, s') := by
  rw [blockFrom_eq_ok, whole]
  constructor
  · intro h
    obtain ⟨b', s₂, hb, h⟩ := run_bind_eq_ok.mp h
    obtain ⟨⟨⟩, s₃, hfinish, h⟩ := run_bind_eq_ok.mp h
    obtain ⟨rfl, rfl⟩ : b' = b ∧ s₃ = s' := by simpa using h
    rw [implBlock_eq, run_mark_bind] at hb
    obtain ⟨bs, s₁, hbs, hb⟩ := run_bind_eq_ok.mp hb
    exact ⟨bs, s₁, s₂, hbs, hb, hfinish⟩
  · rintro ⟨bs, s₁, s₂, hbs, hb, hfinish⟩
    refine run_bind_eq_ok.mpr ⟨b, s₂, ?_, run_bind_eq_ok.mpr ⟨(), s', hfinish, rfl⟩⟩
    rw [implBlock_eq, run_mark_bind]
    exact run_bind_eq_ok.mpr ⟨bs, s₁, hbs, hb⟩

/-- A block can be read up to some of its attributes and from there on. -/
theorem exists_ran {e : Expectation} (h : (whole implBlock n).run (.start e x) = .ok (b, s'))
    (hattrs : b.attrs = as ++ bs) :
    ∃ k s₁, Ran n (.start e x) as k s₁ ∧ (blockFrom as k n).run s₁ = .ok (b, s') := by
  obtain ⟨bs', s₁, s₂, hbs, hb, hfinish⟩ := blockFrom_eq_ok.mp (whole_eq_ok.mp h)
  obtain rfl : bs' = as ++ bs := ((blockAfter_attrs _ _ _).of_run hb).symm.trans hattrs
  obtain ⟨k, s₃, hran, hbs⟩ := attributes_append_iff.mp hbs
  exact ⟨k, s₃, hran, blockFrom_eq_ok.mpr ⟨bs, s₁, s₂, hbs, hb, hfinish⟩⟩

theorem Ran.whole {e : Expectation} (h : Ran n (.start e x) as k s₁)
    (hb : (blockFrom as k n).run s₁ = .ok (b, s')) :
    (whole implBlock n).run (.start e x) = .ok (b, s') := by
  obtain ⟨bs, s₂, s₃, hbs, hb, hfinish⟩ := blockFrom_eq_ok.mp hb
  refine whole_eq_ok.mpr (blockFrom_eq_ok.mpr ⟨as ++ bs, s₂, s₃, ?_, hb, hfinish⟩)
  exact attributes_append_iff.mpr ⟨k, s₁, h, hbs⟩

theorem eq_of_attributes_nil (h : (attributes k).run s = .ok ([], s₁)) : s₁ = s := by
  cases k with
  | zero => simp [attributes] at h
  | succ k =>
    rw [attributes, run_peek_bind] at h
    split at h
    · obtain ⟨a, s₂, -, h⟩ := run_bind_eq_ok.mp h
      obtain ⟨as, s₃, -, h⟩ := run_bind_eq_ok.mp h
      simp at h
    · rw [run_mark_bind] at h
      obtain ⟨t, r, -, h⟩ := run_shift_bind_eq_ok.mp h
      obtain ⟨a, s₂, -, h⟩ := run_bind_eq_ok.mp h
      obtain ⟨as, s₃, -, h⟩ := run_bind_eq_ok.mp h
      simp at h
    · simpa using h.symm

/-- What stands behind an attribute of a block can stand at the start of one. -/
theorem next_of_blockFrom (h : (blockFrom as k n).run s = .ok (b, s')) :
    ∃ t r, s.next = .token t r ∧ t.kind ∈ Expected.block := by
  obtain ⟨bs, s₁, s₂, hbs, hb, -⟩ := blockFrom_eq_ok.mp h
  have htoken : s.next.kind ∈ Expected.block →
      ∃ t r, s.next = .token t r ∧ t.kind ∈ Expected.block := by
    intro hkind
    cases hnext : s.next with
    | token t r =>
      rw [hnext] at hkind
      exact ⟨t, r, rfl, hkind⟩
    | ended | unknown => simp [hnext, Next.kind, Expected.block] at hkind
  rcases bs with _ | ⟨a, bs⟩
  · obtain rfl := eq_of_attributes_nil hbs
    rw [blockAfter] at hb
    rcases run_optional_bind_eq_ok.mp hb with ⟨t, r, hnext, hkind, -⟩ | ⟨-, hb⟩
    · exact ⟨t, r, hnext, by simp [hkind, Expected.block]⟩
    · obtain ⟨t, r, hnext, hkind, -⟩ := run_token_bind_eq_ok.mp hb
      exact ⟨t, r, hnext, by simp [hkind, Expected.block]⟩
  · cases k with
    | zero => simp [attributes] at hbs
    | succ k =>
      obtain ⟨s₃, ha, -⟩ := attributes_cons_iff.mp hbs
      apply htoken
      rcases oneAttribute_eq_ok.mp ha with ⟨hkind, -⟩ | ⟨hkind, -⟩ <;> simp [hkind, Expected.block]

theorem blockFrom_alike {N : Nat → Nat → Prop} {as' : List (Attribute Extent)} {k' n' L : Nat}
    {e : Expectation} {κ : Option Terminal} (hk : 16 * L + 1 ≤ k) (hk' : 16 * L + 1 ≤ k')
    (hn : 16 * L + 1 ≤ n) (hn' : 16 * L + 1 ≤ n') :
    Alike anyTable N (fun _ _ b b' => (∃ bs bs', b.attrs = as ++ bs ∧ b'.attrs = as' ++ bs' ∧
        List.Forall₂ (SameAttribute N) bs bs') ∧ ImplBlock.Related (Extent.Related N) b b') L e κ
      (blockFrom as k n) (blockFrom as' k' n') := by
  rw [blockFrom, blockFrom]
  refine (attributes_alike k hk hk').bind fun i _ _ bs bs' hi hbs => ?_
  refine (blockAfter_alike (by omega) (by omega)).bind fun j _ _ b b' _ hb => ?_
  refine Alike.finish.bind fun _ _ _ _ _ _ _ => Alike.pure ⟨⟨bs, bs', hb.1, hb.2.1, hbs⟩, hb.2.2⟩

/-! ## The same text behind other attributes -/

/-- The same token stands next and the same text behind it. -/
def SameNext (s s' : Scan) : Prop :=
  ∃ t t' r, s.next = .token t r ∧ s'.next = .token t' r ∧ t.kind = t'.kind ∧ t.text = t'.text

theorem sameNext_pace : Pace anyTable (fun _ y y' => y = y') SameNext where
  kind := by
    rintro e y _ rfl
    rfl
  take := by
    rintro e e' y _ t r rfl h -
    exact ⟨r, h, rfl⟩
  startKind := by
    rintro s s' ⟨t, t', r, h, h', hkind, -⟩
    rw [kind_of_token h, kind_of_token h', hkind]
  startTake := by
    rintro s s' e t r ⟨t₀, t', r', h, h', -, htext⟩ hnext -
    obtain ⟨rfl, rfl⟩ := Next.token.inj (hnext.symm.trans h)
    exact ⟨t', r, h', htext, rfl⟩

/-- The rest of a block is the same behind other attributes. -/
theorem blockFrom_of_sameNext (as : List (Attribute Extent)) {as' : List (Attribute Extent)}
    {k' n' : Nat} {b' : ImplBlock Extent} (hnext : SameNext s s')
    (h : (blockFrom as' k' n').run s' = .ok (b', s₁)) (hk : 16 * s.rest.length + 1 ≤ k)
    (hk' : 16 * s.rest.length + 1 ≤ k') (hn : 16 * s.rest.length + 1 ≤ n)
    (hn' : 16 * s.rest.length + 1 ≤ n') : ∃ b s₂, (blockFrom as k n).run s = .ok (b, s₂) ∧
    ∃ bs, b'.attrs = as' ++ bs ∧
      b.unplaced = { b'.unplaced with attrs := (as ++ bs).map Attribute.unplaced } := by
  obtain ⟨hok, herr⟩ := follow (blockFrom_alike (κ := none) hk hk' hn hn')
    (sameNext_pace.lockstep s.taken s'.taken) (.start ⟨rfl, rfl, .nil⟩ hnext) rfl (by simp)
    (Nat.le_refl _)
  cases hrun : (blockFrom as k n).run s with
  | error s₂ =>
    obtain ⟨s₂', hrun', -⟩ := herr s₂ hrun trivial
    rw [h] at hrun'
    cases hrun'
  | ok p =>
    obtain ⟨b, s₂⟩ := p
    obtain ⟨b'', s₂', -, hrun', ⟨⟨bs, bs', hbs, hbs', hsame⟩, hrelated⟩, -⟩ := hok b s₂ hrun trivial
    obtain ⟨rfl, rfl⟩ : b' = b'' ∧ s₁ = s₂' := by simpa [h] using hrun'
    refine ⟨b, s₂, rfl, bs', hbs', ?_⟩
    rw [hrelated.unplaced_eq, hbs, List.map_append, List.map_append,
      Attribute.map_unplaced_eq hsame]

/-! ## The place of an attribute -/

/-- An attribute lies between the start of its first token and the end of its last one. -/
theorem oneAttribute_takes (h : (oneAttribute n).run s = .ok (a, s₁)) :
    a.place = ⟨s.taken.length, s₁.taken.length⟩ ∧
      ∃ t r new, s.next = .token t r ∧ s.Takes (t :: new) s₁ := by
  rcases oneAttribute_eq_ok.mp h with ⟨-, h⟩ | ⟨-, h⟩
  · obtain ⟨t, r, hnext, rfl, rfl⟩ := docAttribute_eq_ok.mp h
    exact ⟨rfl, t, r, [], hnext, .token hnext _⟩
  · obtain ⟨m, s₂, t', r', hopened, hnext', -, rfl, rfl⟩ := bracketed_eq_ok.mp h
    obtain ⟨t, r, hnext, hopened⟩ := run_shift_bind_eq_ok.mp hopened
    obtain ⟨new, hok, -⟩ := takes_of_run (token .lsqb Expected.metaItem >>= fun _ => metaItem n)
      ⟨t :: s.taken, r, [.lsqb]⟩
    refine ⟨rfl, t, r, new ++ [t'], hnext, ?_⟩
    exact (Scan.Takes.token hnext _).trans ((hok m s₂ hopened).trans (.token hnext' _))

end Grammar

/-- Tokens that have been taken lie between the start of the first and the end of the last one. -/
theorem Extent.location_of_takes {new : List Token} (h : s.Takes (t :: new) s₁) (us : List Token)
    (file : String) (text : List Char) :
    ((Extent.mk s.taken.length s₁.taken.length).location file text
        (Token.spans 0 (s₁.taken.reverse ++ us)).toArray).start =
      (Token.spelled s.taken.reverse ++ t.gap).length ∧
    ((Extent.mk s.taken.length s₁.taken.length).location file text
        (Token.spans 0 (s₁.taken.reverse ++ us)).toArray).stop =
      (Token.spelled s₁.taken.reverse).length := by
  have hstart := Token.spans_getElem? 0 s.taken.reverse t (new ++ us)
  have htaken : s.taken.reverse ++ t :: (new ++ us) = s₁.taken.reverse ++ us := by simp [h.1]
  rw [htaken, List.length_reverse] at hstart
  -- The last token that was taken ends where all of them do.
  obtain ⟨init, c, hc⟩ : ∃ init c, s₁.taken.reverse = init ++ [c] := by
    rcases List.eq_nil_or_concat s₁.taken.reverse with hnil | ⟨init, c, hc⟩
    · simp [h.1] at hnil
    · exact ⟨init, c, by rw [hc, List.concat_eq_append]⟩
  have hstop := Token.spans_getElem? 0 init c us
  have hlength : init.length = s₁.taken.length - 1 := by
    have := congrArg List.length hc
    simp at this
    omega
  rw [hlength, List.append_cons, ← hc] at hstop
  simp only [Extent.location, List.getElem?_toArray, hstart, hstop,
    Option.getD_some, Location.range]
  rw [hc]
  simp

/-! ## Without the attribute -/

/-- What is taken for a token does not start with layout. -/
theorem ink_of_token {e : Expectation} {y : List Char} (h : Next.of e x = .token t y)
    (r : List Char) : ∃ c w, t.text ++ r = c :: w ∧ Recogniser.isLayout c = false := by
  obtain ⟨-, v, -, hv⟩ := Next.of_eq_token h
  obtain ⟨c, w, hw⟩ := List.exists_cons_of_ne_nil (Next.text_ne_nil_of_token h)
  rw [hw] at hv ⊢
  exact ⟨c, w ++ r, rfl, Next.not_isLayout_of_first hv⟩

/-- Bounds that do not count back. -/
theorem Text.removeBetween_eq (text : List Char) {i j : Int} (hi : 0 ≤ i) (hj : 0 ≤ j) :
    Text.removeBetween text i j = Text.removeAttribute text i.toNat j.toNat := by
  rw [Text.removeBetween, if_pos hj, Text.bound, if_neg (by omega), Text.removeAttribute,
    Text.removeAttribute, ← List.take_eq_take_min]

/-- Behind what is left of the gaps, the token is found that stood behind the attribute. -/
theorem sameNext_of_gapsLeft {text r gap gap' g' : List Char}
    (he : s₁ = .start Expected.block text ∨ s₁.expected = Expected.afterAttribute)
    (he₂ : s₂.expected = Expected.afterAttribute) (h : s₂.next = .token t r)
    (ht : t.kind ∈ Expected.block) (hleft : GapsLeft s₁.expected gap t.gap gap' g') :
    Grammar.SameNext ⟨s₁.taken, gap' ++ (g' ++ (t.text ++ r)), s₁.expected⟩ s₂ := by
  refine ⟨⟨t.kind, gap' ++ g', t.text⟩, t, r, ?_, h, rfl, rfl⟩
  rw [Scan.next, he₂] at h
  have hback := hleft.back_gap (gap_of_token h)
  rw [Scan.next, ← List.append_assoc]
  rcases he with rfl | he
  · have hback' : Gap Expected.block g' := hback.expect (by decide) (by decide)
    exact of_block h ht (hleft.front.append hback')
  · simp only [he]
    rw [he] at hleft
    exact (hleft.front.append hback).of_token (of_text h)

theorem head_of_endsLine {g u : List Char} (h : Text.endsLine (g ++ u) = true)
    (hu : StaysOnLine u) : g.head? = some '\n' := by
  obtain ⟨c, r, rfl, hc⟩ := hu
  cases g with
  | nil => simp [Text.endsLine, hc] at h
  | cons d g => simpa [Text.endsLine] using h

/-- A text without an attribute: what stands in front of it may stand in front of what is left, and
there the same is read next as behind the attribute. -/
theorem removeBetween_place {text r : List Char}
    (hran : Grammar.Ran n (.start Expected.block text) as m s₁)
    (ha : (Grammar.oneAttribute k).run s₁ = .ok (a, s₂)) (h : s₂.next = .token t r)
    (ht : t.kind ∈ Expected.block) (hlater : s₂.Later s') {file : String} {l : Location}
    (hl : l = a.place.location file text (Token.spans 0 s'.taken.reverse).toArray) :
    ∃ x v', text = x ++ s₁.rest ∧ Text.removeBetween text l.start l.stop = x ++ v' ∧
      v'.length ≤ s₁.rest.length ∧ (∀ y, y <:+ x → MayReplace (y ++ s₁.rest) (y ++ v')) ∧
      Grammar.SameNext ⟨s₁.taken, v', s₁.expected⟩ s₂ := by
  obtain ⟨hplace, t₁, r₁, new, hnext, htakes⟩ := Grammar.oneAttribute_takes ha
  obtain ⟨new₁, htaken, htext⟩ := hran.takes
  have hspelled : Token.spelled s₁.taken.reverse = Token.spelled new₁ := by
    simp [htaken, Scan.start]
  obtain ⟨us, hus⟩ := hlater
  -- The attribute stands between two gaps.
  have hrest : s₁.rest = t₁.gap ++
      ((t₁.text ++ Token.spelled new) ++ (t.gap ++ (t.text ++ r))) := by
    rw [htakes.2, (Next.of_eq_token h).1]
    simp
  have hends : EndsInAttribute (Token.spelled new₁) t₁.gap := by
    rcases hran.ends htext with hx | hx | hx | hx
    · exact .inl hx
    · exact .inr (.inl hx)
    · exact .inr (.inr (.inl hx))
    · rw [hrest, List.append_assoc] at hx
      exact .inr (.inr (.inr (head_of_endsLine hx (StaysOnLine.of_token hnext _))))
  obtain ⟨gap', g', hleft, hremoved⟩ := removeAttribute_eq (a := t₁.text ++ Token.spelled new)
    (g := t.gap) hends (gap_of_token hnext) (ink_of_token h r)
  refine ⟨Token.spelled new₁, gap' ++ (g' ++ (t.text ++ r)), htext, ?_, ?_, fun y hy => ?_,
    sameNext_of_gapsLeft hran.expected (Grammar.oneAttribute_run ha).1 h ht hleft⟩
  · obtain ⟨hstart, hstop⟩ := Extent.location_of_takes htakes us file text
    rw [← hplace, ← hus, ← hl] at hstart hstop
    have hspelled₂ : Token.spelled s₂.taken.reverse =
        Token.spelled new₁ ++ t₁.gap ++ (t₁.text ++ Token.spelled new) := by
      simp [htakes.1, hspelled]
    rw [hstart, hstop, hspelled, hspelled₂, Text.removeBetween_eq text (by omega) (by omega),
      Int.toNat_natCast, Int.toNat_natCast, ← hremoved, ← hrest]
    exact congrArg (Text.removeAttribute · _ _) htext
  · have := hleft.length_le
    rw [hrest]
    simp only [List.length_append]
    omega
  · rw [hrest]
    exact hleft.mayReplace hends (StaysOnLine.of_token hnext _) hy

/-- A block is the same without one of its attributes. -/
theorem implBlock_removeBetween {text : List Char}
    (h : (Reading.whole Grammar.implBlock (depth text)).run (.start Expected.block text) =
      .ok (b, s'))
    (hattrs : b.attrs = as ++ a :: bs) {file : String} {l : Location}
    (hl : l = a.place.location file text (Token.spans 0 s'.taken.reverse).toArray) :
    ∃ b' s'', (Reading.whole Grammar.implBlock (depth (Text.removeBetween text l.start l.stop))).run
        (.start Expected.block (Text.removeBetween text l.start l.stop)) = .ok (b', s'') ∧
      b'.unplaced = { b.unplaced with attrs := (as ++ bs).map Attribute.unplaced } := by
  rw [List.append_cons] at hattrs
  obtain ⟨k, s₂, hran, hrest⟩ := Grammar.exists_ran h hattrs
  obtain ⟨j, s₁, hran₁, hran₂⟩ := Grammar.Ran.append_iff.mp hran
  obtain ⟨ha, rfl⟩ : (Grammar.oneAttribute k).run s₁ = .ok (a, s₂) ∧ j = k + 1 := by
    rcases hran₂ with _ | ⟨ha, ⟨⟩⟩
    exact ⟨ha, rfl⟩
  obtain ⟨t, r, hnext, hkind⟩ := Grammar.next_of_blockFrom hrest
  obtain ⟨x, v', htext, hcut, hlength, hreplace, hsame⟩ :=
    removeBetween_place hran₁ ha hnext hkind (Reading.later_of_run hrest) hl
  rw [hcut]
  have hle : 16 * text.length + 2 ≤ depth text := by
    rw [depth]
    omega
  have hle' : 16 * (x ++ v').length + 2 ≤ depth (x ++ v') := by
    rw [depth]
    omega
  have hshort : (x ++ v').length ≤ text.length := by
    rw [htext, List.length_append, List.length_append]
    omega
  -- The attributes in front are read as before, and the rest as it is behind the attribute.
  have hran' := hran₁.inFront htext hreplace hle
  have hle'' : 16 * (x ++ v').length + 2 ≤ depth text := by omega
  obtain ⟨m', hran''⟩ := hran'.depth hle'' hle'
  have hdepth := hran₁.depth_le hle
  have hdepth' : 16 * v'.length + 2 ≤ m' := hran''.depth_le hle'
  rw [List.length_append] at hle' hshort
  obtain ⟨b', s₃, hb', bs', hbs', hunplaced⟩ := Grammar.blockFrom_of_sameNext as hsame hrest
    (k := m') (n := depth (x ++ v')) (by simp only; omega) (by simp only; omega)
    (by simp only; omega) (by simp only; omega)
  obtain rfl : bs = bs' := List.append_cancel_left (hattrs.symm.trans hbs')
  exact ⟨b', s₃, hran''.whole hb', hunplaced⟩

end ShadowImpl
