import ShadowImpl.Proofs.Gaps
import ShadowImpl.Text.Removal

/-!
# Reading attributes in front of another text

Attributes that have been read in front of one text are read in front of another one as well, unless
the other text closes something that they leave open, or goes on with the line of a comment.
-/

namespace ShadowImpl

open Lexeme Recogniser

variable {α β : Type} {e : Expectation} {x y u u' v v' : List Char} {t : Token} {s s' s₁ : Scan}

/-! ## Single tokens -/

/-- The text `v'` may stand for `v` behind a bracket: it closes nothing that `v` does not close, and
if the line is over in front of `v`, it is over in front of `v'`. -/
structure MayReplace (v v' : List Char) : Prop where
  closes : ∀ m : Mark, m.text <:+: ']' :: v' → m.text <:+: ']' :: v
  line : Text.endsLine v = true → Text.endsLine v' = true

/-- A comment that takes all of `w` and nothing of `v` ends its line. -/
theorem endsLine_of_line {w : List Char} (h : line (w ++ v) = w.length) :
    Text.endsLine v = true := by
  cases v with
  | nil => rfl
  | cons c v =>
    by_contra hc
    have hc : c ≠ '\n' := by simpa [Text.endsLine] using hc
    rw [line, run_append] at h
    split at h
    · rw [← line, line_cons hc] at h
      omega
    · contradiction

theorem endsLine_of_first {w : List Char} {v' : Terminal}
    (h : first e (w ++ v) = some (.terminal v', w.length)) (hw : ['/', '/'] <+: w) :
    Text.endsLine v = true := by
  obtain ⟨r, rfl⟩ := hw
  have hcomment : Recogniser.comment (['/', '/'] ++ r ++ v) = some (2 + line (r ++ v)) := rfl
  have hlen := eq_of_comment hcomment h
  refine endsLine_of_line (w := r) ?_
  simp only [List.length_append, List.length_cons, List.length_nil] at hlen
  omega

/-- A token in front of a closing bracket is read as it is, whatever follows the bracket. -/
theorem of_before_bracket (h : Next.of e (x ++ ']' :: v) = .token t (y ++ ']' :: v)) (hy : Lexes y)
    (hv : MayReplace v v') : Next.of e (x ++ ']' :: v') = .token t (y ++ ']' :: v') := by
  obtain ⟨-, k, -, hk⟩ := Next.of_eq_token h
  refine Next.of_append (Next.of_cut h) hy ?_ ?_ ?_
  · rintro c hc
    obtain rfl : c = ']' := by simpa using hc.symm
    exact ⟨rfl, by simp, by simp⟩
  · rintro rfl hslashes
    have := endsLine_of_first hk hslashes
    simp [Text.endsLine] at this
  · intro m hm hawaited hclosed
    rw [← List.append_assoc] at hk
    exact not_infix_of_awaited hk (by simp) hm hawaited (hv.closes m hclosed)

/-! ## Scans -/

/-- From one scan a later one is reached by taking tokens. -/
inductive Scan.Reaches : Scan → Scan → Prop where
  | refl (s : Scan) : Reaches s s
  | step {s s' : Scan} {t : Token} {rest : List Char} {e : Expectation} (h : s.next = .token t rest)
      (hs : Reaches ⟨t :: s.taken, rest, e⟩ s') : Reaches s s'

/-- Scans that have taken the same tokens and stand in front of the same text, up to a closing
bracket behind which `v` and `v'` stand. -/
structure InFront (v v' : List Char) (s s' : Scan) : Prop where
  taken : s'.taken = s.taken
  expected : s'.expected = s.expected
  rest : ∃ y, s.rest = y ++ ']' :: v ∧ s'.rest = y ++ ']' :: v'

/-- What is left before a bracket that is reached starts with a lexeme. -/
theorem Scan.Reaches.lexes (h : s.Reaches s₁) (hend : s₁.next = .token t v) (ht : t.kind = .rsqb) :
    ∃ y, s.rest = y ++ ']' :: v ∧ Lexes y := by
  induction h with
  | refl s =>
    refine ⟨t.gap, ?_, (gap_of_token hend).lexes⟩
    rw [(Next.of_eq_token hend).1, text_of_rsqb hend ht, List.append_assoc]
    rfl
  | @step s s' t' rest e' h _ ih =>
    obtain ⟨y, hy, -⟩ := ih hend
    have hrest := (Next.of_eq_token h).1
    simp only at hy
    rw [hy] at hrest h
    refine ⟨t'.gap ++ t'.text ++ y, by rw [hrest, List.append_assoc _ y], ?_⟩
    rw [Scan.next, hrest, ← List.append_assoc] at h
    exact Next.lexes_of_token (Next.of_cut h)

theorem inFront_lockstep (hv : MayReplace v v') (hend : s₁.next = .token t v)
    (ht : t.kind = .rsqb) : Reading.Lockstep Grammar.anyTable (Offset 0 0) (InFront v v')
    (·.Reaches s₁) := by
  -- A token that is followed by others up to the bracket ends in front of it.
  have hnext : ∀ {s s' t' rest e}, InFront v v' s s' → s.next = .token t' rest →
      Scan.Reaches ⟨t' :: s.taken, rest, e⟩ s₁ → ∃ rest', s'.next = .token t' rest' ∧
        InFront v v' ⟨t' :: s.taken, rest, e⟩ ⟨t' :: s'.taken, rest', e⟩ := by
    intro s s' t' rest e h hnext hr
    obtain ⟨x, hx, hx'⟩ := h.rest
    obtain ⟨y, hy, hlexes⟩ := hr.lexes hend ht
    simp only at hy
    subst hy
    rw [Scan.next, hx] at hnext
    refine ⟨y ++ ']' :: v', ?_, by rw [h.taken], rfl, y, rfl, rfl⟩
    rw [Scan.next, h.expected, hx']
    exact of_before_bracket hnext hlexes hv
  refine ⟨fun h hr => .step h hr, fun {s s'} h hr => ?_, fun h hn _ hr => ?_, fun h => ?_,
    fun h hij => ?_⟩
  · -- At the bracket itself nothing but its gap is left in front.
    cases hr with
    | refl =>
      obtain ⟨y, hy, hy'⟩ := h.rest
      have hrest := (Next.of_eq_token hend).1
      obtain rfl : y = t.gap := by
        rw [hy, text_of_rsqb hend ht, List.append_assoc] at hrest
        exact List.append_cancel_right hrest
      rw [hend, Scan.next, h.expected, hy', of_rsqb hend ht v']
      rfl
    | step hn hr =>
      obtain ⟨rest', hn', -⟩ := hnext h hn hr
      rw [hn, hn']
      rfl
  · obtain ⟨rest', hn', hs'⟩ := hnext h hn hr
    exact ⟨_, rest', hn', rfl, hs'⟩
  · rw [h.taken]
    exact ⟨_, (Nat.zero_add _).symm, (Nat.zero_add _).symm⟩
  · rw [Scan.textFrom, Scan.textFrom, h.taken, hij.eq]

/-! ## One attribute -/

namespace Grammar

open Reading

/-- An attribute in brackets, up to the closing one. -/
def opened (n : Nat) : Reading (Meta Extent) := do
  let _ ← shift [.lsqb]
  let _ ← token .lsqb Expected.metaItem
  metaItem n

/-- One attribute in front of a block or of an item. -/
def oneAttribute (n : Nat) : Reading (Attribute Extent) := do
  match ← peek with
  | .docComment => docAttribute .doc Expected.afterAttribute
  | .hash =>
    let first ← mark
    let _ ← shift [.lsqb]
    bracketed .outer Expected.afterAttribute first n
  | _ => refuse

theorem docAttribute_eq_ok {style : AttrStyle} {after : Expectation} {a : Attribute Extent} :
    (docAttribute style after).run s = .ok (a, s₁) ↔ ∃ t r, s.next = .token t r ∧
      s₁ = ⟨t :: s.taken, r, after⟩ ∧
      a = ⟨style, none, String.ofList t.text, ⟨s.taken.length, s₁.taken.length⟩⟩ := by
  rw [docAttribute, run_mark_bind, run_shift_bind_eq_ok]
  simp only [run_mark_bind, run_pure, Except.ok.injEq, Prod.mk.injEq]
  constructor
  · rintro ⟨t, r, h, rfl, rfl⟩
    exact ⟨t, r, h, rfl, rfl⟩
  · rintro ⟨t, r, h, rfl, rfl⟩
    exact ⟨t, r, h, rfl, rfl⟩

/-- The attribute that is closed behind its content. -/
theorem bracketed_eq_ok {n : Nat} {a : Attribute Extent} :
    (do
      let first ← mark
      let _ ← shift [.lsqb]
      bracketed .outer Expected.afterAttribute first n).run s = .ok (a, s₁) ↔
    ∃ m s₂ t r, (opened n).run s = .ok (m, s₂) ∧ s₂.next = .token t r ∧ t.kind = .rsqb ∧
      s₁ = ⟨t :: s₂.taken, r, Expected.afterAttribute⟩ ∧
      a = ⟨.outer, some m, String.ofList (s₁.textFrom s.taken.length),
        ⟨s.taken.length, s₁.taken.length⟩⟩ := by
  rw [run_mark_bind]
  constructor
  · intro h
    obtain ⟨t₁, r₁, h₁, h⟩ := run_shift_bind_eq_ok.mp h
    rw [bracketed] at h
    obtain ⟨t₂, r₂, h₂, hk₂, h⟩ := run_token_bind_eq_ok.mp h
    obtain ⟨m, s₂, hm, h⟩ := run_bind_eq_ok.mp h
    obtain ⟨t, r, h₃, hk, h⟩ := run_token_bind_eq_ok.mp h
    rw [run_textFrom_bind, run_mark_bind, run_pure] at h
    obtain ⟨rfl, rfl⟩ := Prod.mk.inj (Except.ok.inj h)
    refine ⟨m, s₂, t, r, ?_, h₃, hk, rfl, rfl⟩
    exact run_shift_bind_eq_ok.mpr ⟨t₁, r₁, h₁, run_token_bind_eq_ok.mpr ⟨t₂, r₂, h₂, hk₂, hm⟩⟩
  · rintro ⟨m, s₂, t, r, h, h₃, hk, rfl, rfl⟩
    obtain ⟨t₁, r₁, h₁, h⟩ := run_shift_bind_eq_ok.mp h
    obtain ⟨t₂, r₂, h₂, hk₂, hm⟩ := run_token_bind_eq_ok.mp h
    refine run_shift_bind_eq_ok.mpr ⟨t₁, r₁, h₁, ?_⟩
    rw [bracketed]
    refine run_token_bind_eq_ok.mpr ⟨t₂, r₂, h₂, hk₂, ?_⟩
    exact run_bind_eq_ok.mpr ⟨m, s₂, hm, run_token_bind_eq_ok.mpr ⟨t, r, h₃, hk, rfl⟩⟩

/-- The two forms of an attribute. -/
theorem oneAttribute_eq_ok {n : Nat} {a : Attribute Extent} :
    (oneAttribute n).run s = .ok (a, s₁) ↔
      (s.next.kind = .docComment ∧
        (docAttribute .doc Expected.afterAttribute).run s = .ok (a, s₁)) ∨
      (s.next.kind = .hash ∧
        (do
          let first ← mark
          let _ ← shift [.lsqb]
          bracketed .outer Expected.afterAttribute first n).run s = .ok (a, s₁)) := by
  rw [oneAttribute, run_peek_bind]
  cases s.next.kind <;> simp

theorem attributes_cons_iff {n : Nat} {a : Attribute Extent} {as : List (Attribute Extent)} :
    (attributes (n + 1)).run s = .ok (a :: as, s') ↔
      ∃ s₁, (oneAttribute n).run s = .ok (a, s₁) ∧ (attributes n).run s₁ = .ok (as, s') := by
  -- However the first attribute is read, the others follow it.
  have hmore : ∀ {r : Reading (Attribute Extent)},
      (do let a ← r; return a :: (← attributes n)).run s = .ok (a :: as, s') ↔
        ∃ s₁, r.run s = .ok (a, s₁) ∧ (attributes n).run s₁ = .ok (as, s') := by
    intro r
    constructor
    · intro h
      obtain ⟨b, s₁, hb, h⟩ := run_bind_eq_ok.mp h
      obtain ⟨bs, s₂, hbs, h⟩ := run_bind_eq_ok.mp h
      simp only [run_pure, Except.ok.injEq, Prod.mk.injEq, List.cons.injEq] at h
      obtain ⟨⟨rfl, rfl⟩, rfl⟩ := h
      exact ⟨s₁, hb, hbs⟩
    · rintro ⟨s₁, ha, has⟩
      exact run_bind_eq_ok.mpr ⟨a, s₁, ha, run_bind_eq_ok.mpr ⟨as, s', has, rfl⟩⟩
  rw [attributes, oneAttribute, run_peek_bind]
  simp only [run_peek_bind]
  cases s.next.kind with
  | docComment => exact hmore
  | hash =>
    exact hmore (r := do
      let first ← mark
      let _ ← shift [.lsqb]
      bracketed .outer Expected.afterAttribute first n)
  | _ => simp

/-! ## The bound on the depth -/

theorem opened_alike {N : Nat → Nat → Prop} {n m L : Nat} {t : Terminal} (hn : 16 * L + 1 ≤ n)
    (hm : 16 * L + 1 ≤ m) :
    Alike anyTable N (fun _ _ a b => Meta.Related (Extent.Related N) a b) L e (some t)
      (opened n) (opened m) := by
  rw [opened, opened]
  refine Alike.shift_bind trivial fun i hi _ => Alike.token_bind trivial fun j hj _ => ?_
  exact (metaItem_alike (by omega) (by omega)).mono_table fun _ _ _ _ => trivial

theorem oneAttribute_alike {N : Nat → Nat → Prop} {n m L : Nat} {κ : Option Terminal}
    (hn : 16 * L + 1 ≤ n) (hm : 16 * L + 1 ≤ m) :
    Alike anyTable N (fun _ _ a b => SameAttribute N a b) L e κ (oneAttribute n)
      (oneAttribute m) := by
  rw [oneAttribute, oneAttribute]
  refine Alike.peek_bind fun t => ?_
  split
  · exact docAttribute_alike.mono fun _ _ _ _ _ h => h.2
  · refine Alike.mark_bind fun i j hij => Alike.shift_bind trivial fun i' hi' _ => ?_
    exact bracketed_alike hij (by omega) (by omega)
  · exact .refuse

/-- A scan agrees with itself. -/
theorem eq_lockstep : Lockstep anyTable (Offset 0 0) Eq fun _ => True where
  back _ _ := trivial
  kind := by
    rintro s _ rfl _
    rfl
  take := by
    rintro s _ t rest e rfl h - -
    exact ⟨t, rest, h, rfl, rfl⟩
  count := by
    rintro s _ rfl
    exact ⟨_, (Nat.zero_add _).symm, (Nat.zero_add _).symm⟩
  text := by
    rintro s _ i j rfl hij
    rw [hij.eq]

theorem eq_of_sameAttribute {a b : Attribute Extent} (h : SameAttribute (Offset 0 0) a b) :
    a = b := by
  rcases a with ⟨style, content, text, ⟨first, last⟩⟩
  rcases b with ⟨style', content', text', ⟨first', last'⟩⟩
  obtain rfl : style = style' := h.style
  obtain rfl : text = text' := h.text
  obtain rfl : first = first' := h.place.first.eq
  obtain rfl : last = last' := h.place.last.eq
  obtain rfl : content = content' := by
    cases h.content with
    | none => rfl
    | some hm => rw [Meta.eq_of_related hm]
  rfl

/-- An attribute is the same for every depth that is large enough. -/
theorem oneAttribute_depth {n m : Nat} {a : Attribute Extent}
    (h : (oneAttribute n).run s = .ok (a, s₁)) (hn : 16 * s.rest.length + 1 ≤ n)
    (hm : 16 * s.rest.length + 1 ≤ m) : (oneAttribute m).run s = .ok (a, s₁) := by
  have halike := oneAttribute_alike (N := Offset 0 0) (e := s.expected) (κ := none) hn hm
  obtain ⟨hok, -⟩ := follow halike eq_lockstep rfl rfl (by simp) (Nat.le_refl _)
  obtain ⟨b, s₂, -, hb, hab, rfl⟩ := hok a s₁ h trivial
  rw [hb, eq_of_sameAttribute hab]

/-! ## Another text behind -/

/-- An attribute is the same in front of another text that may stand there. -/
theorem oneAttribute_inFront {n : Nat} {a : Attribute Extent}
    (h : (oneAttribute n).run s = .ok (a, s₁)) (hx : s.rest = x ++ s₁.rest)
    (hv : MayReplace s₁.rest v') (hn : 16 * s.rest.length + 1 ≤ n) :
    (oneAttribute n).run ⟨s.taken, x ++ v', s.expected⟩ = .ok (a, ⟨s₁.taken, v', s₁.expected⟩) := by
  rw [oneAttribute_eq_ok] at h ⊢
  rcases h with ⟨hkind, h⟩ | ⟨hkind, h⟩
  · left
    obtain ⟨t, r, hnext, rfl, rfl⟩ := docAttribute_eq_ok.mp h
    rw [kind_of_token hnext] at hkind
    obtain ⟨hrest, k, -, hk⟩ := Next.of_eq_token hnext
    obtain rfl : x = t.gap ++ t.text := List.append_cancel_right (hx.symm.trans hrest)
    have hnext' : Next.of s.expected (t.gap ++ t.text ++ v') = .token t v' := by
      rw [List.append_assoc]
      -- A line of documentation goes up to the end of the line, which stays one.
      refine of_docComment hnext hkind fun hslashes => ?_
      have := hv.line (endsLine_of_first hk hslashes)
      cases v' with
      | nil => exact .inl rfl
      | cons c v' => exact .inr (by simpa [Text.endsLine] using this)
    refine ⟨?_, docAttribute_eq_ok.mpr ⟨t, v', hnext', rfl, rfl⟩⟩
    rw [Scan.next, hnext']
    exact hkind
  · right
    obtain ⟨m, s₂, t, r, hopened, hnext, ht, rfl, rfl⟩ := bracketed_eq_ok.mp h
    have hlock := inFront_lockstep hv hnext ht
    have hreach : s.Reaches s₂ :=
      (@seen_of_run _ (·.Reaches s₂) hlock.back _ s).1 m s₂ hopened (.refl s₂)
    obtain ⟨y, hy, -⟩ := hreach.lexes hnext ht
    obtain rfl : x = y ++ [']'] := by
      rw [hx, List.append_cons] at hy
      exact List.append_cancel_right hy
    have hs : InFront r v' s ⟨s.taken, y ++ [']'] ++ v', s.expected⟩ :=
      ⟨rfl, rfl, y, hy, by simp⟩
    -- Up to the closing bracket both readings go in step.
    obtain ⟨hok, -⟩ := follow (opened_alike hn hn) hlock hs rfl
      (fun _ hκ => hkind.trans (Option.some.inj hκ)) (Nat.le_refl _)
    obtain ⟨m', s₂', -, hopened', hm, hs₂⟩ := hok m s₂ hopened (.refl s₂)
    obtain rfl : m = m' := Meta.eq_of_related hm
    have hnext' : s₂'.next = .token t v' := by
      obtain ⟨y₂, hy₂, hy₂'⟩ := hs₂.rest
      have hrest := (Next.of_eq_token hnext).1
      obtain rfl : y₂ = t.gap := by
        rw [hy₂, text_of_rsqb hnext ht, List.append_assoc] at hrest
        exact List.append_cancel_right hrest
      rw [Scan.next, hs₂.expected, hy₂', of_rsqb hnext ht v']
    refine ⟨(hlock.kind hs hreach).symm.trans hkind, bracketed_eq_ok.mpr ?_⟩
    refine ⟨m, s₂', t, v', hopened', hnext', ht, by rw [hs₂.taken], ?_⟩
    simp only [Scan.textFrom]

/-! ## Attributes one after the other -/

/-- An attribute takes some text. -/
theorem oneAttribute_run {n : Nat} {a : Attribute Extent}
    (h : (oneAttribute n).run s = .ok (a, s₁)) : s₁.expected = Expected.afterAttribute ∧
    ∃ x, x ≠ [] ∧ s.rest = x ++ s₁.rest := by
  have hlater : ∀ {s₂ : Scan} {t r}, (∃ w, s.rest = w ++ s₂.rest) → s₂.next = .token t r →
      ∃ x, x ≠ [] ∧ s.rest = x ++ r := by
    rintro s₂ t r ⟨w, hw⟩ hnext
    refine ⟨w ++ (t.gap ++ t.text), ?_, ?_⟩
    · simp [Next.text_ne_nil_of_token hnext]
    · rw [hw, (Next.of_eq_token hnext).1, ← List.append_assoc]
  rw [oneAttribute_eq_ok] at h
  rcases h with ⟨-, h⟩ | ⟨-, h⟩
  · obtain ⟨t, r, hnext, rfl, -⟩ := docAttribute_eq_ok.mp h
    exact ⟨rfl, hlater ⟨[], rfl⟩ hnext⟩
  · obtain ⟨m, s₂, t, r, hopened, hnext, -, rfl, -⟩ := bracketed_eq_ok.mp h
    obtain ⟨new, hok, -⟩ := takes_of_run (opened n) s
    exact ⟨rfl, hlater ⟨_, (hok m s₂ hopened).2⟩ hnext⟩

/-- Attributes that are read one after the other, from one scan to another and from one depth to
another. -/
inductive Ran : Nat → Scan → List (Attribute Extent) → Nat → Scan → Prop where
  | nil (n : Nat) (s : Scan) : Ran n s [] n s
  | cons {n m : Nat} {s s₁ s₂ : Scan} {a : Attribute Extent} {as : List (Attribute Extent)}
      (h : (oneAttribute n).run s = .ok (a, s₁)) (hs : Ran n s₁ as m s₂) :
      Ran (n + 1) s (a :: as) m s₂

variable {as bs : List (Attribute Extent)} {n m : Nat}

theorem attributes_append_iff : (attributes n).run s = .ok (as ++ bs, s') ↔
    ∃ m s₁, Ran n s as m s₁ ∧ (attributes m).run s₁ = .ok (bs, s') := by
  induction as generalizing n s with
  | nil =>
    constructor
    · intro h
      exact ⟨n, s, .nil n s, h⟩
    · rintro ⟨_, _, ⟨⟩, h⟩
      exact h
  | cons a as ih =>
    constructor
    · intro h
      cases n with
      | zero => simp [attributes] at h
      | succ n =>
        obtain ⟨s₁, ha, h⟩ := attributes_cons_iff.mp h
        obtain ⟨m, s₂, hran, h⟩ := ih.mp h
        exact ⟨m, s₂, .cons ha hran, h⟩
    · rintro ⟨m, s₂, hran, h⟩
      cases hran with
      | cons ha hran => exact attributes_cons_iff.mpr ⟨_, ha, ih.mpr ⟨m, s₂, hran, h⟩⟩

theorem Ran.append_iff : Ran n s (as ++ bs) m s' ↔ ∃ k s₁, Ran n s as k s₁ ∧ Ran k s₁ bs m s' := by
  induction as generalizing n s with
  | nil =>
    constructor
    · intro h
      exact ⟨n, s, .nil n s, h⟩
    · rintro ⟨_, _, ⟨⟩, h⟩
      exact h
  | cons a as ih =>
    constructor
    · rintro (_ | ⟨ha, h⟩)
      obtain ⟨k, s₂, has, hbs⟩ := ih.mp h
      exact ⟨k, s₂, .cons ha has, hbs⟩
    · rintro ⟨k, s₂, _ | ⟨ha, has⟩, hbs⟩
      exact .cons ha (ih.mpr ⟨k, s₂, has, hbs⟩)

theorem Ran.takes (h : Ran n s as m s₁) : ∃ new, s.Takes new s₁ := by
  induction h with
  | nil n s => exact ⟨[], .refl s⟩
  | cons ha _ ih =>
    obtain ⟨new, hok, -⟩ := takes_of_run (oneAttribute _) _
    obtain ⟨new', hnew⟩ := ih
    exact ⟨new ++ new', (hok _ _ ha).trans hnew⟩

theorem Ran.rest (h : Ran n s as m s₁) : ∃ x, s.rest = x ++ s₁.rest := by
  obtain ⟨new, hnew⟩ := h.takes
  exact ⟨_, hnew.2⟩

/-- Each attribute costs one step of the depth and at least one character. -/
theorem Ran.depth_le (h : Ran n s as m s₁) (hn : 16 * s.rest.length + 2 ≤ n) :
    16 * s₁.rest.length + 2 ≤ m := by
  induction h with
  | nil n s => exact hn
  | cons ha _ ih =>
    obtain ⟨-, x, hx, hrest⟩ := oneAttribute_run ha
    have := List.length_pos_iff.mpr hx
    refine ih ?_
    rw [hrest, List.length_append] at hn
    omega

theorem Ran.expected (h : Ran n s as m s₁) :
    s₁ = s ∨ s₁.expected = Expected.afterAttribute := by
  induction h with
  | nil n s => exact .inl rfl
  | cons ha _ ih =>
    rcases ih with rfl | he
    · exact .inr (oneAttribute_run ha).1
    · exact .inr he

/-- Attributes are the same in front of another text that may stand there. -/
theorem Ran.inFront (h : Ran n s as m s₁) (hx : s.rest = x ++ s₁.rest)
    (hv : ∀ y, y <:+ x → MayReplace (y ++ s₁.rest) (y ++ v')) (hn : 16 * s.rest.length + 2 ≤ n) :
    Ran n ⟨s.taken, x ++ v', s.expected⟩ as m ⟨s₁.taken, v', s₁.expected⟩ := by
  induction h generalizing x with
  | nil n s =>
    obtain rfl : x = [] := by simpa using hx
    exact .nil n _
  | @cons n m s s₂ s₁ a as ha hran ih =>
    obtain ⟨-, x₁, hx₁, hrest⟩ := oneAttribute_run ha
    obtain ⟨x₂, hrest₂⟩ := hran.rest
    obtain rfl : x = x₁ ++ x₂ := by
      rw [hrest, hrest₂, ← List.append_assoc] at hx
      exact (List.append_cancel_right hx).symm
    have hlen := List.length_pos_iff.mpr hx₁
    have hreplace : MayReplace s₂.rest (x₂ ++ v') := by
      rw [hrest₂]
      exact hv x₂ (List.suffix_append x₁ x₂)
    rw [List.append_assoc]
    refine .cons (oneAttribute_inFront ha hrest hreplace (by omega))
      (ih hrest₂ (fun y hy => hv y (hy.trans (List.suffix_append x₁ x₂))) ?_)
    rw [hrest, List.length_append] at hn
    omega

/-- Attributes are the same for every depth that is large enough. -/
theorem Ran.depth {n' : Nat} (h : Ran n s as m s₁) (hn : 16 * s.rest.length + 2 ≤ n)
    (hn' : 16 * s.rest.length + 2 ≤ n') : ∃ m', Ran n' s as m' s₁ := by
  induction h generalizing n' with
  | nil n s => exact ⟨n', .nil n' s⟩
  | @cons _ _ _ s₂ _ _ _ ha _ ih =>
    obtain ⟨n', rfl⟩ : ∃ k, n' = k + 1 := ⟨n' - 1, by omega⟩
    obtain ⟨-, x, hx, hrest⟩ := oneAttribute_run ha
    have hlen := List.length_pos_iff.mpr hx
    have ha' := oneAttribute_depth ha (by omega) (m := n') (by omega)
    rw [hrest, List.length_append] at hn hn'
    have hle : 16 * s₂.rest.length + 2 ≤ n' := by omega
    obtain ⟨m', hran⟩ := ih (by omega) hle
    exact ⟨m', .cons ha' hran⟩

end Grammar
end ShadowImpl
