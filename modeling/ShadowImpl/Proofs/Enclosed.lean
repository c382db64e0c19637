import ShadowImpl.Proofs.Regions
import ShadowImpl.Proofs.Runs

/-!
# What brackets enclose

A list of arguments is kept as text and as the place of its brackets. The text is the one between
the brackets at that place, and the scanner has covered it with lexemes.
-/

namespace ShadowImpl

open Lexeme Recogniser

variable {e : Expectation} {x y u r : List Char} {t : Token}

/-! ## Tokens where anything is expected -/

/-- A text that something other than a line end follows. -/
def StaysOnLine (u : List Char) : Prop :=
  ∃ c r, u = c :: r ∧ c ≠ '\n'

/-- A token starts with no character that ends a line. -/
theorem StaysOnLine.of_token (h : Next.of e x = .token t y) (r : List Char) :
    StaysOnLine (t.text ++ r) := by
  obtain ⟨-, v, -, hv⟩ := Next.of_eq_token h
  obtain ⟨c, w, hw⟩ := List.exists_cons_of_ne_nil (Next.text_ne_nil_of_token h)
  rw [hw] at hv ⊢
  refine ⟨c, w ++ r, rfl, ?_⟩
  rintro rfl
  have := Next.not_isLayout_of_first hv
  simp [isLayout] at this

/-- A lexeme that ends in `x` is the first tile of it. -/
theorem Tiled.step_append {l : Lexeme} {k : Nat}
    (hf : first Expected.anything (x ++ u) = some (l, k)) (hk : k ≤ x.length) (hu : StaysOnLine u)
    (h : Tiled (x.drop k)) : Tiled x := by
  refine .step (first_cut hf hk) (fun hs => ?_) h
  by_contra hn
  obtain ⟨c, r, rfl, hc⟩ := hu
  obtain ⟨r', rfl⟩ := hs
  have hline : r'.length + 1 ≤ line (r' ++ c :: r) := by
    have hr' : line r' = r'.length := by
      rw [line, run, List.takeWhile_eq_self_iff.mpr]
      intro d hd
      simp only [decide_eq_true_eq]
      rintro rfl
      exact hn (by simp [hd])
    rw [line, run_append, ← line, if_pos hr', ← line, line_cons hc]
    omega
  have hcomment : Recogniser.comment (['/', '/'] ++ r' ++ c :: r) =
      some (2 + line (r' ++ c :: r)) := rfl
  have := eq_of_comment hcomment hf
  simp only [List.length_append, List.length_cons, List.length_nil] at hk
  omega

/-- The gap in front of a token is covered by lexemes. -/
theorem tiled_gap (h : Next.of Expected.anything x = .token t y) : Tiled t.gap := by
  have hf := Next.found Expected.anything x
  have hline := StaysOnLine.of_token h y
  rw [h] at hf
  clear h
  generalize hn : Next.token t y = n at hf
  induction hf generalizing t with
  | ended | unknown => simp at hn
  | token =>
    obtain ⟨rfl, -⟩ := Next.token.inj hn
    exact .nil
  | @skip s l k n hl hskip rest ih =>
    cases n with
    | ended | unknown => simp [Next.prepend] at hn
    | token t' y' =>
      obtain ⟨rfl, rfl⟩ := Next.token.inj hn
      have hs := (Next.of_eq_token rest.eq_of).1
      have hk := (first_bounds hl).2
      have hsplit : s = s.take k ++ t'.gap ++ (t'.text ++ y) := by
        rw [List.append_assoc, ← List.append_assoc t'.gap, ← hs, List.take_append_drop]
      rw [hsplit] at hl
      refine Tiled.step_append hl (by simp [hk]) hline ?_
      rw [List.drop_append_of_le_length (by simp [hk]), List.drop_take_self, List.nil_append]
      exact ih hline rfl

/-- A token in front of a text that is covered by lexemes. -/
theorem tiled_token (h : Next.of Expected.anything x = .token t (y ++ u)) (hy : Tiled y)
    (hu : StaysOnLine u) : Tiled (t.gap ++ t.text ++ y) := by
  have hf := Next.found Expected.anything x
  rw [h] at hf
  clear h
  generalize hn : Next.token t (y ++ u) = n at hf
  -- By induction on what is skipped in front of the token, which stands in the gap.
  induction hf generalizing t with
  | ended | unknown => simp at hn
  | @token s v k hv =>
    obtain ⟨rfl, hrest⟩ := Next.token.inj hn
    have hk := (first_bounds hv).2
    rw [← List.take_append_drop k s, ← hrest, ← List.append_assoc] at hv
    refine Tiled.step_append hv (by simp [hk]) hu ?_
    rw [List.nil_append, List.drop_append_of_le_length (by simp [hk]), List.drop_take_self,
      List.nil_append]
    exact hy
  | @skip s l k n hl hskip rest ih =>
    cases n with
    | ended | unknown => simp [Next.prepend] at hn
    | token t' y' =>
      obtain ⟨rfl, rfl⟩ := Next.token.inj hn
      have hs := (Next.of_eq_token rest.eq_of).1
      have hk := (first_bounds hl).2
      have hsplit : s = s.take k ++ (t'.gap ++ t'.text ++ y) ++ u := by
        rw [List.append_assoc (s.take k), List.append_assoc _ y u, ← hs, List.take_append_drop]
      rw [hsplit] at hl
      rw [List.append_assoc, List.append_assoc, ← List.append_assoc t'.gap]
      refine Tiled.step_append hl (by simp [hk]) hu ?_
      rw [List.drop_append_of_le_length (by simp [hk]), List.drop_take_self, List.nil_append]
      exact ih rfl

/-- Tokens that can be put in front of a text that is covered by lexemes. -/
def Extends (new : List Token) (rest : List Char) : Prop :=
  ∀ y u, rest = y ++ u → Tiled y → StaysOnLine u → Tiled (Token.spelled new ++ y)

/-- Nothing new goes in front of anything. -/
theorem Extends.nil (rest : List Char) : Extends [] rest :=
  fun _ _ _ hy _ => by simpa using hy

/-- What goes in front of a text goes in front of it in two steps. -/
theorem Extends.append {new new' : List Token} {rest : List Char}
    (h : Extends new (Token.spelled new' ++ rest)) (h' : Extends new' rest) :
    Extends (new ++ new') rest := by
  intro y u hrest hy hu
  rw [Token.spelled_append, List.append_assoc]
  exact h _ u (by rw [hrest, List.append_assoc]) (h' y u hrest hy hu) hu

theorem Extends.token (h : Next.of Expected.anything x = .token t r) : Extends [t] r := by
  intro y u hr hy hu
  rw [hr] at h
  simpa using tiled_token h hy hu

/-! ## Groups -/

namespace Grammar

open Reading

/-- A bracket is one character long. -/
theorem length_of_bracket {s : Scan} (h : s.next = .token t r)
    (ht : t.kind ∈ [Terminal.lpar, .rpar, .lsqb, .rsqb, .lbrace, .rbrace]) : t.text.length = 1 := by
  have hmem : ∀ k ∈ [Terminal.lpar, .rpar, .lsqb, .rsqb, .lbrace, .rbrace],
      k ∈ Terminal.keywords ++ Terminal.symbols ∧ k.spelling.length = 1 := by
    decide
  rw [Next.text_of_token h (hmem _ ht).1]
  exact (hmem _ ht).2

/-- A bracket that opens and the one that closes are among the six there are. -/
theorem bracket_of_closer {k close : Terminal} (h : closer? k = some close) :
    k ∈ [Terminal.lpar, .rpar, .lsqb, .rsqb, .lbrace, .rbrace] ∧
      close ∈ [Terminal.lpar, .rpar, .lsqb, .rsqb, .lbrace, .rbrace] := by
  cases k <;> simp [closer?] at h <;> subst h <;> decide

/-- The tokens of a group: brackets, and between them a text that is covered by lexemes. -/
def IsGroup (new : List Token) : Prop :=
  ∃ o mid c, new = o :: (mid ++ [c]) ∧ o.text.length = 1 ∧ c.text.length = 1 ∧
    Tiled (Token.spelled mid ++ c.gap)

/-- A group and the trees in it are taken as tokens that go in front of what is left. Both at once,
by induction on the depth. -/
theorem group_trees_run (n : Nat) :
    (∀ s s', (group n).run s = .ok ((), s') → s'.expected = Expected.anything ∧
      ∃ new, s.Takes new s' ∧ IsGroup new ∧
        (s.expected = Expected.anything → Extends new s'.rest)) ∧
    ∀ seps s s', s.expected = Expected.anything → (trees seps n).run s = .ok ((), s') →
      s'.expected = Expected.anything ∧ ∃ new, s.Takes new s' ∧ Extends new s'.rest := by
  induction n with
  | zero => exact ⟨fun _ _ h => by simp [group] at h, fun _ _ _ _ h => by simp [trees] at h⟩
  | succ n ih =>
    refine ⟨fun s s' h => ?_, fun seps s s' he h => ?_⟩
    · rw [group, run_peek_bind] at h
      cases hk : closer? s.next.kind with
      | none => simp [hk] at h
      | some close =>
        rw [hk] at h
        obtain ⟨o, r, hnext, h⟩ := run_shift_bind_eq_ok.mp h
        obtain ⟨⟨⟩, s₁, htrees, h⟩ := run_bind_eq_ok.mp h
        obtain ⟨c, r', hnext', hc, h⟩ := run_token_bind_eq_ok.mp h
        obtain rfl : _ = s' := by simpa using h
        obtain ⟨he₁, mid, htakes, hmid⟩ := ih.2 _ _ _ rfl htrees
        obtain ⟨ho, hclose⟩ := bracket_of_closer hk
        have hopen := Scan.Takes.token hnext Expected.anything
        have hlast := Scan.Takes.token hnext' Expected.anything
        rw [kind_of_token hnext] at ho
        rw [Scan.next, he₁] at hnext'
        have hrest := (Next.of_eq_token hnext').1
        refine ⟨rfl, o :: (mid ++ [c]), ?_, ⟨o, mid, c, rfl, length_of_bracket hnext ho,
          length_of_bracket (s := s₁) (by rw [Scan.next, he₁]; exact hnext') (hc ▸ hclose), ?_⟩,
          fun he => ?_⟩
        · exact hopen.trans (htakes.trans hlast)
        · -- Inside, the trees go in front of the closing bracket.
          refine hmid c.gap (c.text ++ r') (by rw [hrest, List.append_assoc]) (tiled_gap hnext') ?_
          exact .of_token hnext' r'
        · -- In front of what is left stand the opening bracket, the trees and the closing one.
          have hfirst : Extends [o] (Token.spelled (mid ++ [c]) ++ r') := by
            rw [Token.spelled_append, List.append_assoc, ← hlast.2, ← htakes.2]
            rw [Scan.next, he] at hnext
            exact .token hnext
          refine hfirst.append (Extends.append ?_ (.token hnext'))
          rw [← hlast.2]
          exact hmid
    · rw [trees, run_peek_bind] at h
      split at h
      · obtain ⟨⟨⟩, s₁, hgroup, h⟩ := run_bind_eq_ok.mp h
        obtain ⟨he₁, new, htakes, -, hnew⟩ := ih.1 _ _ hgroup
        obtain ⟨he', new', htakes', hnew'⟩ := ih.2 _ _ _ he₁ h
        refine ⟨he', new ++ new', htakes.trans htakes', Extends.append ?_ hnew'⟩
        rw [← htakes'.2]
        exact hnew he
      · split at h
        · obtain ⟨t, r, hnext, h⟩ := run_shift_bind_eq_ok.mp h
          obtain ⟨he', new', htakes', hnew'⟩ := ih.2 _ _ _ rfl h
          refine ⟨he', t :: new', (Scan.Takes.token hnext _).trans htakes', ?_⟩
          have hfirst : Extends [t] (Token.spelled new' ++ s'.rest) := by
            rw [← htakes'.2]
            rw [Scan.next, he] at hnext
            exact .token hnext
          exact hfirst.append hnew'
        · obtain rfl : s = s' := by simpa using h
          exact ⟨he, [], .refl s, .nil _⟩

end Grammar

/-! ## Lists of arguments -/

/-- The text between the brackets at the place `x` of the tokens `ts` is `w`, and it is covered by
lexemes. -/
def Extent.Encloses (ts : List Token) (x : Extent) (w : List Char) : Prop :=
  ∃ ts₁ o mid c ts₂, ts = ts₁ ++ o :: (mid ++ c :: ts₂) ∧
    x = ⟨ts₁.length, ts₁.length + mid.length + 2⟩ ∧ o.text.length = 1 ∧ c.text.length = 1 ∧
    w = Token.spelled mid ++ c.gap ∧ Tiled w

/-- More tokens behind do not change what is enclosed. -/
theorem Extent.Encloses.append {ts : List Token} {x : Extent} {w : List Char}
    (h : x.Encloses ts w) (us : List Token) : x.Encloses (ts ++ us) w := by
  obtain ⟨ts₁, o, mid, c, ts₂, rfl, hx⟩ := h
  exact ⟨ts₁, o, mid, c, ts₂ ++ us, by simp, hx⟩

/-- What is enclosed in brackets is tiled by its tokens. -/
theorem Extent.Encloses.tiled {ts : List Token} {x : Extent} {w : List Char} (h : x.Encloses ts w) :
    Tiled w := by
  obtain ⟨_, _, _, _, _, _, _, _, _, _, h⟩ := h
  exact h

/-- The text of a list of arguments is the one between its brackets. -/
def MetaForm.Sound (ts : List Token) : MetaForm Extent → Prop
  | .list args g => g.Encloses ts args.toList
  | .word | .value => True

/-- An attribute whose list of arguments is sound, if it has one. -/
def Attribute.Sound (ts : List Token) (a : Attribute Extent) : Prop :=
  ∀ m, a.content = some m → m.form.Sound ts

theorem MetaForm.Sound.append {ts : List Token} {f : MetaForm Extent} (h : f.Sound ts)
    (us : List Token) : f.Sound (ts ++ us) := by
  cases f with
  | word | value => trivial
  | list args g => exact Extent.Encloses.append h us

/-- More tokens have been taken. -/
def Scan.Later (s s' : Scan) : Prop :=
  ∃ new, s'.taken.reverse = s.taken.reverse ++ new

/-- A scan that is later than a later one. -/
theorem Scan.Later.trans {s s' s'' : Scan} (h : s.Later s') (h' : s'.Later s'') : s.Later s'' := by
  obtain ⟨new, h⟩ := h
  obtain ⟨new', h'⟩ := h'
  exact ⟨new ++ new', by rw [h', h, List.append_assoc]⟩

theorem Scan.Takes.later {new : List Token} {s s' : Scan} (h : s.Takes new s') : s.Later s' :=
  ⟨new, by simp [h.1]⟩

/-- A run goes on to a later scan. -/
theorem Reading.later_of_run {α : Type} {r : Reading α} {s s' : Scan} {a : α}
    (h : r.run s = .ok (a, s')) : s.Later s' := by
  obtain ⟨new, hok, -⟩ := Reading.takes_of_run r s
  exact (hok a s' h).later

/-- What an attribute encloses is not changed by tokens that are taken later. -/
theorem Attribute.Sound.later {s s' : Scan} {a : Attribute Extent} (h : a.Sound s.taken.reverse)
    (hs : s.Later s') : a.Sound s'.taken.reverse := by
  obtain ⟨new, hnew⟩ := hs
  rw [hnew]
  exact fun m hm => (h m hm).append new

/-- The text of the tokens that a run takes starts with the first of them, without its gap. -/
theorem Scan.textFrom_of_takes {new : List Token} {t : Token} {s s' : Scan}
    (h : s.Takes (t :: new) s') : s'.textFrom s.taken.length = t.text ++ Token.spelled new := by
  have htake : s'.taken.take (s'.taken.length - s.taken.length) = (t :: new).reverse := by
    rw [h.1, List.length_append, Nat.add_sub_cancel, List.take_left]
  rw [Scan.textFrom, htake, List.reverse_reverse]
  rfl

namespace Grammar

open Reading

/-- A list of arguments encloses what stands between its brackets. -/
theorem list_sound {n : Nat} {s s' : Scan} {f : MetaForm Extent}
    (h : (do
      let first ← mark
      group n
      return MetaForm.list (inside (← textFrom first)) (Extent.mk first (← mark))).run s =
        .ok (f, s')) : f.Sound s'.taken.reverse := by
  rw [run_mark_bind] at h
  obtain ⟨⟨⟩, s₁, hgroup, h⟩ := run_bind_eq_ok.mp h
  rw [run_textFrom_bind, run_mark_bind, run_pure] at h
  obtain ⟨rfl, rfl⟩ : _ = f ∧ s₁ = s' := by simpa using h
  obtain ⟨-, new, htakes, ⟨o, mid, c, rfl, ho, hc, htiled⟩, -⟩ := (group_trees_run n).1 _ _ hgroup
  obtain ⟨a, ha⟩ := List.length_eq_one_iff.mp ho
  obtain ⟨b, hb⟩ := List.length_eq_one_iff.mp hc
  refine ⟨s.taken.reverse, o, mid, c, [], ?_, ?_, ho, hc, ?_, ?_⟩
  · simp [htakes.1]
  · simp [htakes.1]
    omega
  · rw [Scan.textFrom_of_takes htakes]
    simp [inside, ha, hb]
  · rw [Scan.textFrom_of_takes htakes]
    simpa [inside, ha, hb] using htiled

/-- Whatever form a meta item has, its list is enclosed, if it has one. -/
theorem metaForm_sound {n : Nat} {s s' : Scan} {f : MetaForm Extent}
    (h : (metaForm n).run s = .ok (f, s')) : f.Sound s'.taken.reverse := by
  rw [metaForm, run_peek_bind] at h
  split at h
  · exact list_sound h
  · exact list_sound h
  · exact list_sound h
  · obtain ⟨t, r, -, h⟩ := run_shift_bind_eq_ok.mp h
    obtain ⟨⟨⟩, s₁, -, h⟩ := run_bind_eq_ok.mp h
    obtain ⟨rfl, -⟩ : _ = f ∧ _ := by simpa using h
    trivial
  · obtain ⟨rfl, -⟩ : _ = f ∧ _ := by simpa using h
    trivial

theorem metaItem_sound {n : Nat} {s s' : Scan} {m : Meta Extent}
    (h : (metaItem n).run s = .ok (m, s')) : m.form.Sound s'.taken.reverse := by
  rw [metaItem, run_mark_bind] at h
  obtain ⟨path, s₁, -, h⟩ := run_bind_eq_ok.mp h
  obtain ⟨form, s₂, hform, h⟩ := run_bind_eq_ok.mp h
  rw [run_mark_bind, run_pure] at h
  obtain ⟨rfl, rfl⟩ : _ = m ∧ s₂ = s' := by simpa using h
  exact metaForm_sound hform

/-- An attribute in brackets encloses the arguments of its meta item. -/
theorem bracketed_sound {style : AttrStyle} {after : Expectation} {first n : Nat} {s s' : Scan}
    {a : Attribute Extent} (h : (bracketed style after first n).run s = .ok (a, s')) :
    a.Sound s'.taken.reverse := by
  rw [bracketed] at h
  obtain ⟨t, r, -, -, h⟩ := run_token_bind_eq_ok.mp h
  obtain ⟨m, s₁, hm, h⟩ := run_bind_eq_ok.mp h
  obtain ⟨t', r', -, -, h⟩ := run_token_bind_eq_ok.mp h
  rw [run_textFrom_bind, run_mark_bind, run_pure] at h
  obtain ⟨rfl, rfl⟩ : _ = a ∧ _ = s' := by simpa using h
  rintro _ ⟨⟩
  simpa using (metaItem_sound hm).append [t']

/-- Documentation has no arguments. -/
theorem docAttribute_sound {style : AttrStyle} {after : Expectation} {s s' : Scan}
    {a : Attribute Extent} (h : (docAttribute style after).run s = .ok (a, s')) (ts : List Token) :
    a.Sound ts := by
  rw [docAttribute, run_mark_bind] at h
  obtain ⟨t, r, -, h⟩ := run_shift_bind_eq_ok.mp h
  rw [run_mark_bind, run_pure] at h
  obtain ⟨rfl, -⟩ : _ = a ∧ _ := by simpa using h
  rintro _ ⟨⟩

/-- All of these attributes are sound. -/
def AllSound (s : Scan) (as : List (Attribute Extent)) : Prop :=
  ∀ a ∈ as, a.Sound s.taken.reverse

theorem AllSound.later {s s' : Scan} {as : List (Attribute Extent)} (h : AllSound s as)
    (hs : s.Later s') : AllSound s' as :=
  fun a ha => (h a ha).later hs

/-- One more attribute in front of others that have been read later. -/
theorem AllSound.cons {s s' : Scan} {a : Attribute Extent} {as : List (Attribute Extent)}
    (ha : a.Sound s.taken.reverse) (hs : s.Later s') (has : AllSound s' as) :
    AllSound s' (a :: as) := by
  simpa [AllSound] using ⟨ha.later hs, has⟩

/-- Attributes that are read enclose their arguments. -/
theorem attributes_sound (n : Nat) {s s' : Scan} {as : List (Attribute Extent)}
    (h : (attributes n).run s = .ok (as, s')) : AllSound s' as := by
  induction n generalizing s as with
  | zero => simp [attributes] at h
  | succ n ih =>
    have hmore : ∀ {s₁ a}, a.Sound s₁.taken.reverse →
        (do return a :: (← attributes n)).run s₁ = .ok (as, s') → AllSound s' as := by
      intro s₁ a ha h
      obtain ⟨as', s₂, has, h⟩ := run_bind_eq_ok.mp h
      obtain ⟨rfl, rfl⟩ : _ = as ∧ s₂ = s' := by simpa using h
      exact .cons ha (later_of_run has) (ih has)
    rw [attributes, run_peek_bind] at h
    split at h
    · obtain ⟨a, s₁, ha, h⟩ := run_bind_eq_ok.mp h
      exact hmore (docAttribute_sound ha _) h
    · rw [run_mark_bind] at h
      obtain ⟨t, r, -, h⟩ := run_shift_bind_eq_ok.mp h
      obtain ⟨a, s₁, ha, h⟩ := run_bind_eq_ok.mp h
      exact hmore (bracketed_sound ha) h
    · obtain ⟨rfl, rfl⟩ : as = [] ∧ s = s' := by simpa using h
      simp [AllSound]

theorem bodyAttributes_sound (n : Nat) {s s' : Scan}
    {as : List (Attribute Extent) × List (Attribute Extent)}
    (h : (bodyAttributes n).run s = .ok (as, s')) : AllSound s' as.2 := by
  -- The inner attributes come first, and nothing is said about them.
  induction n generalizing s as with
  | zero => simp [bodyAttributes] at h
  | succ n ih =>
    rw [bodyAttributes, run_peek_bind] at h
    split at h
    · obtain ⟨a, s₁, -, h⟩ := run_bind_eq_ok.mp h
      obtain ⟨as', s₂, has, h⟩ := run_bind_eq_ok.mp h
      obtain ⟨rfl, rfl⟩ : _ = as ∧ s₂ = s' := by simpa using h
      have hrest : AllSound s₂ as'.2 := ih has
      exact hrest
    · rw [run_mark_bind] at h
      obtain ⟨t, r, -, h⟩ := run_shift_bind_eq_ok.mp h
      rcases run_optional_bind_eq_ok.mp h with ⟨t', r', -, -, h⟩ | ⟨-, h⟩
      · obtain ⟨a, s₁, -, h⟩ := run_bind_eq_ok.mp h
        obtain ⟨as', s₂, has, h⟩ := run_bind_eq_ok.mp h
        obtain ⟨rfl, rfl⟩ : _ = as ∧ s₂ = s' := by simpa using h
        have hrest : AllSound s₂ as'.2 := ih has
        exact hrest
      · obtain ⟨a, s₁, ha, h⟩ := run_bind_eq_ok.mp h
        obtain ⟨as', s₂, has, h⟩ := run_bind_eq_ok.mp h
        obtain ⟨rfl, rfl⟩ : _ = as ∧ s₂ = s' := by simpa using h
        exact .cons (bracketed_sound ha) (later_of_run has) (attributes_sound n has)
    · obtain ⟨as', s₂, has, h⟩ := run_bind_eq_ok.mp h
      obtain ⟨rfl, rfl⟩ : _ = as ∧ s₂ = s' := by simpa using h
      exact attributes_sound n has

/-! ## Items -/

/-- A method has the attributes that have been read in front of it. -/
theorem method_attrs (attrs : List (Attribute Extent)) (first n : Nat) :
    (method attrs first n).Yields fun i => i.attrs = attrs :=
  .bind fun _ => .bind fun _ => .bind fun _ => .bind fun _ => .bind fun _ => .bind fun _ =>
    .bind fun _ => .bind fun _ => .bind fun _ => .bind fun _ => rfl

theorem verbatimRest_attrs (kind : ItemKind) (attrs : List (Attribute Extent)) (first n : Nat) :
    (verbatimRest kind attrs first n).Yields fun i => i.attrs = attrs :=
  .bind fun _ => .bind fun _ => .bind fun _ => .bind fun _ => rfl

theorem macroCall_attrs (attrs : List (Attribute Extent)) (n : Nat) :
    (macroCall attrs n).Yields fun i => i.attrs = attrs :=
  .bind fun _ => .bind fun _ => .bind fun _ => .bind fun _ => .bind fun _ => .bind fun _ => rfl

/-- So has any other item. -/
theorem member_attrs (attrs : List (Attribute Extent)) (first n : Nat) :
    (member attrs first n).Yields fun i => i.attrs = attrs := by
  refine .bind fun t => ?_
  split
  · exact .bind fun _ => .bind fun _ => verbatimRest_attrs _ _ _ _
  · refine .bind fun _ => .bind fun t => ?_
    split
    · exact .bind fun _ => verbatimRest_attrs _ _ _ _
    · exact method_attrs _ _ _
  · exact method_attrs _ _ _

/-- An item has the attributes that it is given. -/
theorem item_attrs (attrs : List (Attribute Extent)) (n : Nat) :
    (item attrs n).Yields fun i => i.attrs = attrs := by
  refine .bind fun t => ?_
  split
  · exact macroCall_attrs _ _
  · refine .bind fun _ => .bind fun _ => .bind fun t => ?_
    split
    · exact .bind fun _ => member_attrs _ _ _
    · exact member_attrs _ _ _
  · exact .bind fun _ => member_attrs _ _ _

/-- The attributes of the items of a block enclose their arguments. -/
theorem items_sound (n : Nat) {s s' : Scan} {attrs : List (Attribute Extent)}
    {is : List (Item Extent)} (h : (items attrs n).run s = .ok (is, s'))
    (hattrs : AllSound s attrs) : ∀ i ∈ is, AllSound s' i.attrs := by
  induction n generalizing s attrs is with
  | zero => simp [items] at h
  | succ n ih =>
    rw [items, run_peek_bind] at h
    split at h
    · obtain ⟨t, r, -, h⟩ := run_shift_bind_eq_ok.mp h
      obtain ⟨rfl, -⟩ : is = [] ∧ _ := by simpa using h
      simp
    · obtain ⟨i, s₁, hi, h⟩ := run_bind_eq_ok.mp h
      obtain ⟨as, s₂, has, h⟩ := run_bind_eq_ok.mp h
      obtain ⟨is', s₃, his, h⟩ := run_bind_eq_ok.mp h
      obtain ⟨rfl, rfl⟩ : _ = is ∧ s₃ = s' := by simpa using h
      have hlater := ((later_of_run hi).trans (later_of_run has)).trans (later_of_run his)
      have hi' : i.attrs = attrs := (item_attrs attrs n).of_run hi
      simp only [List.mem_cons, forall_eq_or_imp, hi']
      exact ⟨hattrs.later hlater, ih his (attributes_sound n has)⟩

theorem blockAfter_attrs (attrs : List (Attribute Extent)) (first n : Nat) :
    (blockAfter attrs first n).Yields fun b => b.attrs = attrs := by
  refine .bind fun _ => .bind fun _ => .bind fun _ => .bind fun _ => .bind fun _ => .bind fun _ =>
    .bind fun _ => .bind fun self => .bind fun _ => .bind fun _ => .bind fun _ => .bind fun _ =>
    .bind fun _ => .bind fun _ => ?_
  cases self with
  | none => exact rfl
  | some => exact rfl

/-- The items of a block are read behind the attributes at the start of its body. -/
theorem exists_items_of_blockAfter {attrs : List (Attribute Extent)} {first n : Nat} {s s' : Scan}
    {b : ImplBlock Extent} (h : (blockAfter attrs first n).run s = .ok (b, s')) :
    ∃ as s₁ s₂, (bodyAttributes n).run s₁ = .ok (as, s₂) ∧ (items as.2 n).run s₂ =
      .ok (b.items, s') := by
  rw [blockAfter] at h
  obtain ⟨isUnsafe, s₁, -, h⟩ := run_bind_eq_ok.mp h
  obtain ⟨_, s₂, -, h⟩ := run_bind_eq_ok.mp h
  obtain ⟨params, s₃, -, h⟩ := run_bind_eq_ok.mp h
  rw [run_mark_bind] at h
  obtain ⟨header, s₄, -, h⟩ := run_bind_eq_ok.mp h
  rw [run_textFrom_bind, run_mark_bind] at h
  obtain ⟨self, s₅, -, h⟩ := run_bind_eq_ok.mp h
  obtain ⟨clause, s₆, -, h⟩ := run_bind_eq_ok.mp h
  obtain ⟨_, s₇, -, h⟩ := run_bind_eq_ok.mp h
  obtain ⟨as, s₈, has, h⟩ := run_bind_eq_ok.mp h
  obtain ⟨is, s₉, his, h⟩ := run_bind_eq_ok.mp h
  rw [run_textFrom_bind, run_mark_bind] at h
  have hitems : b.items = is ∧ s₉ = s' := by
    cases self <;> simp at h <;> exact ⟨by rw [← h.1], h.2⟩
  rw [hitems.1, ← hitems.2]
  exact ⟨as, s₇, s₈, has, his⟩

/-- So they do when the block has been read to its end. -/
theorem blockAfter_sound {attrs : List (Attribute Extent)} {first n : Nat} {s s' : Scan}
    {b : ImplBlock Extent} (h : (blockAfter attrs first n).run s = .ok (b, s')) :
    ∀ i ∈ b.items, AllSound s' i.attrs := by
  obtain ⟨as, s₁, s₂, has, his⟩ := exists_items_of_blockAfter h
  exact items_sound n his (bodyAttributes_sound n has)

end Grammar
/-! ## Places -/

namespace Token

@[simp] theorem length_spans (b : Nat) (ts : List Token) : (spans b ts).length = ts.length := by
  induction ts generalizing b with
  | nil => rfl
  | cons t ts ih => simp [spans, ih]

/-- The spans of tokens that stand behind others are moved by the text of these. -/
theorem spans_append (b : Nat) (ts us : List Token) :
    spans b (ts ++ us) = spans b ts ++ spans (b + (spelled ts).length) us := by
  induction ts generalizing b with
  | nil => simp [spans]
  | cons t ts ih =>
    simp only [List.cons_append, spans, ih, spelled_cons, List.length_append]
    congr 3
    omega

/-- Where a token starts and stops. -/
theorem spans_getElem? (b : Nat) (ts : List Token) (t : Token) (us : List Token) :
    (spans b (ts ++ t :: us))[ts.length]? =
      some (b + (spelled ts ++ t.gap).length, b + (spelled ts ++ t.gap ++ t.text).length) := by
  rw [spans_append, List.getElem?_append_right (by simp), length_spans, Nat.sub_self]
  simp [spans, Nat.add_assoc]

end Token

/-- The offsets between the brackets of a list of arguments are those of its text. -/
theorem Extent.Encloses.interior_eq {ts : List Token} {x : Extent} {w : List Char}
    (h : x.Encloses ts w) (file : String) (text : List Char) (b : Nat) :
    ∃ p, ∃ o ∈ ts, ∃ c ∈ ts, ∃ q, o.text.length = 1 ∧ c.text.length = 1 ∧
      Token.spelled ts = (p ++ o.text) ++ w ++ (c.text ++ q) ∧
      Directive.interior (x.location file text (Token.spans b ts).toArray) =
        (((b + (p ++ o.text).length : Nat) : Int),
          ((b + (p ++ o.text ++ w).length : Nat) : Int)) := by
  obtain ⟨ts₁, o, mid, c, ts₂, rfl, rfl, ho, hc, rfl, -⟩ := h
  have hopen := Token.spans_getElem? b ts₁ o (mid ++ c :: ts₂)
  have hclose := Token.spans_getElem? b (ts₁ ++ o :: mid) c ts₂
  rw [show ts₁ ++ o :: mid ++ c :: ts₂ = ts₁ ++ o :: (mid ++ c :: ts₂) by simp] at hclose
  have hlen : (ts₁ ++ o :: mid).length = ts₁.length + mid.length + 2 - 1 := by
    simp
    omega
  rw [hlen] at hclose
  refine ⟨Token.spelled ts₁ ++ o.gap, o, by simp, c, by simp, Token.spelled ts₂, ho,
    hc, by simp, ?_⟩
  simp only [Extent.location, List.getElem?_toArray, hopen, hclose, Option.getD_some,
    Directive.interior, Location.range, Prod.mk.injEq]
  simp only [Token.spelled_append, Token.spelled_cons, List.length_append, ho, hc]
  constructor <;> omega

/-- The region between the brackets of a list of arguments holds its text. -/
theorem Source.holds_interior {s : Source} {p v q w rest : List Char} {ts : List Token} {x : Extent}
    (hs : s.text.toList = p ++ v ++ q) (hv : v = Token.spelled ts ++ rest) (hx : x.Encloses ts w)
    (file : String) (text : List Char) :
    (∃ p' q', Holds { s with region := some (Directive.interior
      (x.location file text (Token.spans p.length ts).toArray)) } p' w q') ∧ Tiled w := by
  obtain ⟨p', o, -, c, -, q', -, -, hts, hregion⟩ := hx.interior_eq file text p.length
  have htext : s.text.toList = (p ++ (p' ++ o.text)) ++ w ++ (c.text ++ q' ++ rest ++ q) := by
    rw [hs, hv, hts]
    simp
  refine ⟨⟨p ++ (p' ++ o.text), c.text ++ q' ++ rest ++ q, ?_⟩, hx.tiled⟩
  have hholds := holds_region htext
  rw [hregion]
  simpa [Nat.add_assoc] using hholds

end ShadowImpl
