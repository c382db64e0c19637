import ShadowImpl.Proofs.BodyStart
import ShadowImpl.Proofs.Phrases
import ShadowImpl.Proofs.Quotations

/-!
# Quoted attributes

An attribute is written on a line of its own, with the text that it was read with. On its line it is
read as the same attribute again, in front of a block or of an item or at the start of a body.
-/

namespace ShadowImpl

open Filter Lexeme Recogniser Reading

variable {σ : Type} {s s' s₁ : Scan} {n : Nat} {a : Attribute Extent} {as : List (Attribute Extent)}
  {ends : List Terminal} {e : Expectation} {g z indent : List Char}

namespace Attribute

/-- On a line of its own, the attribute is read in front of a block or of an item. -/
def OuterRead (a : Attribute σ) : Prop :=
  Quotes Grammar.oneAttribute (fun b => a.unplaced = b.unplaced) [.docComment, .hash]
    (fun e => .docComment ∈ e ∧ finds e .hash = true) a.text.toList Expected.afterAttribute
    fun z => z.head? = some '\n'

end Attribute

/-- The end of a line parts what stands in front of it from what follows. -/
theorem parting_of_line (hz : z.head? = some '\n') : Parting z := by
  intro c hc
  obtain rfl : '\n' = c := Option.some.inj (hz.symm.trans hc)
  exact ⟨rfl, by decide, by decide⟩

namespace Grammar

/-! ## Attributes in front of a block or of an item -/

/-- The reading of an attribute, whatever its form, ends right behind a token that it has taken. -/
theorem closes_docAttribute {style : AttrStyle} {after : Expectation} :
    Closes [after] ends false (docAttribute style after) := by
  rw [docAttribute]
  exact .after mark fun _ => .bind (.shift (by simp)) fun _ => .bind .mark fun _ => .done

theorem closes_bracketed {style : AttrStyle} {after : Expectation} {first : Nat} (n : Nat) :
    Closes [after] ends false (bracketed style after first n) := by
  rw [bracketed]
  refine .after (token _ _) fun _ => .after (metaItem n) fun _ => .bind
    (.token (by simp)) fun _ => ?_
  exact .bind (.textFrom _) fun _ => .bind .mark fun _ => .done

theorem closes_oneAttribute (n : Nat) :
    Closes [Expected.afterAttribute] ends false (oneAttribute n) := by
  rw [oneAttribute]
  refine .after peek fun t => ?_
  split
  · exact closes_docAttribute
  · exact .after mark fun _ => .after (shift _) fun _ => closes_bracketed n
  · exact .refuse

/-- The text of an attribute is the text of its tokens. -/
theorem docAttribute_text {style : AttrStyle} {after : Expectation}
    (h : (docAttribute style after).run s = .ok (a, s₁)) :
    a.text.toList = s₁.textFrom s.taken.length := by
  obtain ⟨t, r, hnext, rfl, rfl⟩ := docAttribute_eq_ok.mp h
  rw [Scan.textFrom_of_takes (Scan.Takes.token hnext after)]
  simp

theorem bracketed_text {style : AttrStyle} {after : Expectation} {first : Nat}
    (h : (bracketed style after first n).run s = .ok (a, s₁)) :
    a.text.toList = s₁.textFrom first := by
  rw [bracketed] at h
  obtain ⟨t, r, -, -, h⟩ := run_token_bind_eq_ok.mp h
  obtain ⟨m, s₂, -, h⟩ := run_bind_eq_ok.mp h
  obtain ⟨t', r', -, -, h⟩ := run_token_bind_eq_ok.mp h
  rw [run_textFrom_bind, run_mark_bind, run_pure] at h
  obtain ⟨rfl, rfl⟩ := Prod.mk.inj (Except.ok.inj h)
  exact String.toList_ofList

/-- An attribute that has been read is a quotation of its text. -/
theorem quotes_of_attribute {r : Nat → Reading (Attribute Extent)} {e₁ : Expectation}
    {starts : List Terminal} {places : Expectation → Prop} (h : (r n).run s = .ok (a, s₁))
    (htext : a.text.toList = s₁.textFrom s.taken.length)
    (hcloses : ∀ ends m, Closes [e₁] ends false (r m))
    (halike : ∀ m ≥ 16 * s.rest.length + 1, ∀ N, Alike anyTable N
      (fun _ _ a b => SameAttribute N a b) s.rest.length s.expected none (r n) (r m))
    (hs : Shuts s₁.rest) (hstarts : s.next.kind ∈ starts)
    (hmoves : ∀ e, places e → ∀ t rest, s.next = .token t rest → t.Moves s.expected e) :
    Quotes r (fun b => a.unplaced = b.unplaced) starts places a.text.toList e₁
      fun z => z.head? = some '\n' := by
  have halike' : ∀ m ≥ 16 * s.rest.length + 1, ∀ N, Alike anyTable N
      (fun _ _ (a b : Attribute Extent) => a.unplaced = b.unplaced) s.rest.length s.expected none
        (r n) (r m) :=
    fun m hm N => (halike m hm N).mono fun _ _ _ _ _ hab => hab.unplaced_eq
  have hlt : s.taken.length < s₁.taken.length :=
    (halike' _ le_rfl (Offset s.taken.length 0)).lt_of_closes (hcloses [] _) ⟨0, rfl, rfl⟩ h
  obtain rfl : s₁.expected = e₁ := by
    simpa using (hcloses [] n).expected_mem (by simp) h
  rw [htext]
  refine quotes_of_run h hlt ((eventually_ge_atTop _).mono halike') hs ?_ hstarts hmoves
  intro z hz
  exact ⟨parting_of_line hz, .inl hz, _, [s₁.next.kind, (Next.of s₁.expected z).kind], _,
    hcloses _, by simp, by simp⟩

/-- An attribute that has been read in front of what leaves nothing open is read again. -/
theorem oneAttribute_outerRead (h : (oneAttribute n).run s = .ok (a, s₁))
    (hn : 16 * s.rest.length + 1 ≤ n) (hs : Shuts s₁.rest) : a.OuterRead := by
  have hkind : s.next.kind = .docComment ∨ s.next.kind = .hash :=
    (oneAttribute_eq_ok.mp h).imp And.left And.left
  refine quotes_of_attribute h ?_ (fun _ => closes_oneAttribute)
    (fun m hm N => oneAttribute_alike hn hm) hs (by simpa using hkind) ?_
  · rcases oneAttribute_eq_ok.mp h with ⟨-, h⟩ | ⟨-, h⟩
    · exact docAttribute_text h
    · obtain ⟨m, s₂, t, r, -, -, -, -, rfl⟩ := bracketed_eq_ok.mp h
      exact String.toList_ofList
  · rintro e ⟨hdoc, hhash⟩ t rest hnext
    rw [kind_of_token hnext] at hkind
    rcases hkind with ht | ht
    · exact Token.moves_docComment ht hdoc
    · exact Token.moves_symbol (by rw [ht]; decide) (by rw [ht]; exact hhash)

/-- So is each of a row of them. -/
theorem attributes_outerRead (h : (attributes n).run s = .ok (as, s'))
    (hn : 16 * s.rest.length + 2 ≤ n) (hs : Shuts s'.rest) : ∀ a ∈ as, a.OuterRead := by
  rw [← List.append_nil as] at h
  obtain ⟨m, s₁, hran, hrest⟩ := attributes_append_iff.mp h
  have hs₁ : Shuts s₁.rest := hs.of_suffix (Scan.reaches_of_run hrest).rest_suffix
  clear h hrest
  induction hran with
  | nil => simp
  | @cons n m s s₁ s₂ a as ha hran ih =>
    obtain ⟨-, x, hx, hrest⟩ := oneAttribute_run ha
    have hlen := List.length_pos_iff.mpr hx
    obtain ⟨y, hy⟩ := hran.rest
    have hread := oneAttribute_outerRead ha (by omega) (hs₁.of_suffix ⟨y, hy.symm⟩)
    rw [hrest, List.length_append] at hn
    exact List.forall_mem_cons.mpr ⟨hread, ih (by omega) hs₁⟩

/-- What is expected behind attributes, in the place of `e`. -/
def afterAttributes (e : Expectation) (as : List (Attribute σ)) : Expectation :=
  if as.isEmpty then e else Expected.afterAttribute

/-- No attribute is read where none starts. -/
theorem attributes_nil_iff :
    (attributes (n + 1)).run s = .ok ([], s') ↔ s.next.kind ∉ [Terminal.docComment,
      .hash] ∧ s' = s := by
  have hmore : ∀ {r : Reading (Attribute Extent)} {s : Scan},
      (do let a ← r; return a :: (← attributes n)).run s ≠ .ok ([], s') := by
    intro r s h
    obtain ⟨b, s₁, -, h⟩ := run_bind_eq_ok.mp h
    obtain ⟨bs, s₂, -, h⟩ := run_bind_eq_ok.mp h
    simp at h
  rw [attributes, run_peek_bind]
  cases s.next.kind with
  | docComment => simpa using hmore
  | hash =>
    simp only [run_mark_bind]
    refine ⟨fun h => ?_, fun h => by simp at h⟩
    obtain ⟨t, r, -, h⟩ := run_shift_bind_eq_ok.mp h
    exact absurd h hmore
  | _ => simp [eq_comm]

/-- What is expected behind attributes depends on whether there are any. -/
theorem attributes_expected (h : (attributes n).run s = .ok (as, s')) :
    s'.expected = afterAttributes s.expected as := by
  induction n generalizing s as with
  | zero => simp [attributes] at h
  | succ n ih =>
    cases as with
    | nil =>
      rw [(attributes_nil_iff.mp h).2]
      rfl
    | cons a as =>
      obtain ⟨s₁, ha, has⟩ := attributes_cons_iff.mp h
      rw [ih has, (oneAttribute_run ha).1]
      simp [afterAttributes]

/-- Each attribute and the line feed behind it, up to the next line. -/
def attributeLines (indent : List Char) (as : List (Attribute σ)) : List Char :=
  as.flatMap fun a => a.text.toList ++ '\n' :: indent

/-- The gap behind attributes on lines of their own, in the place of `g`. -/
def lineGap (g indent : List Char) (as : List (Attribute σ)) : List Char :=
  if as.isEmpty then g else '\n' :: indent

theorem isLayout_line (hindent : IsLayout indent) : IsLayout ('\n' :: indent) :=
  List.forall_mem_cons.mpr ⟨rfl, hindent⟩

theorem isLayout_lineGap (hg : IsLayout g) (hindent : IsLayout indent) (as : List (Attribute σ)) :
    IsLayout (lineGap g indent as) := by
  rw [lineGap]
  split
  · exact hg
  · exact isLayout_line hindent

/-- Attributes that are written on a line each, behind an indentation, are read again. -/
theorem attributes_readsAs {as : List (Attribute σ)} (has : ∀ a ∈ as, a.OuterRead)
    (he : as ≠ [] → .docComment ∈ e ∧ finds e .hash = true) (hg : IsLayout g)
    (hindent : IsLayout indent)
    (hz : (Next.of (afterAttributes e as) (lineGap g indent as ++ z)).kind ∉
      [Terminal.docComment, .hash]) :
    (as ≠ [] → (Next.of e (g ++ (attributeLines indent as ++ z))).kind ∈
      [Terminal.docComment, .hash]) ∧
    ∀ᶠ n in atTop, (attributes n).ReadsAs
      (fun bs => as.map Attribute.unplaced = bs.map Attribute.unplaced) e
      (g ++ (attributeLines indent as ++ z)) (afterAttributes e as) (lineGap g indent as ++ z) := by
  -- By induction on the attributes. Each ends its line, so that nothing behind it can be read into
  -- it.
  induction as generalizing e g with
  | nil =>
    refine ⟨fun h => absurd rfl h, eventually_of_succ (.of_forall fun n taken => ?_)⟩
    exact ⟨[], taken, rfl, (attributes_nil_iff (s := ⟨taken, g ++ z, e⟩)).mpr ⟨hz, rfl⟩⟩
  | cons a as ih =>
    obtain ⟨ha, has⟩ := List.forall_mem_cons.mp has
    have htext : attributeLines indent (a :: as) ++ z =
        a.text.toList ++ ('\n' :: indent ++ (attributeLines indent as ++ z)) := by
      simp [attributeLines]
    have hafter : afterAttributes Expected.afterAttribute as = afterAttributes e (a :: as) := by
      simp [afterAttributes]
    have hgap : lineGap ('\n' :: indent) indent as = lineGap g indent (a :: as) := by
      simp [lineGap]
    obtain ⟨-, hmore⟩ := ih (e := Expected.afterAttribute) (g := '\n' :: indent) has
      (fun _ => by decide) (isLayout_line hindent) (by rw [hafter, hgap]; exact hz)
    obtain ⟨hkind, hone⟩ := ha e (he (by simp)) g hg
      ('\n' :: indent ++ (attributeLines indent as ++ z)) rfl
    rw [htext]
    refine ⟨fun _ => hkind, eventually_of_succ ?_⟩
    filter_upwards [hone, hmore] with n hone hmore taken
    obtain ⟨b, taken₁, hb, hrun⟩ := hone taken
    obtain ⟨bs, taken₂, hbs, hrun'⟩ := hmore taken₁
    rw [hafter, hgap] at hrun'
    exact ⟨b :: bs, taken₂, by simp [hb, hbs], attributes_cons_iff.mpr ⟨_, hrun, hrun'⟩⟩

/-! ## Attributes at the start of a body -/

/-- One inner attribute. -/
def innerAttribute (n : Nat) : Reading (Attribute Extent) := do
  match ← peek with
  | .innerDoc => docAttribute .inner Expected.body
  | .hash =>
    let first ← mark
    let _ ← shift [.bang, .lsqb]
    let _ ← token .bang [.lsqb]
    bracketed .inner Expected.body first n
  | _ => refuse

end Grammar

/-- On a line of its own, the attribute is read at the start of a body. -/
def Attribute.InnerRead (a : Attribute σ) : Prop :=
  Quotes Grammar.innerAttribute (fun b => a.unplaced = b.unplaced) [.innerDoc, .hash]
    (fun e => e = Expected.body) a.text.toList Expected.body fun z => z.head? = some '\n'

namespace Grammar

variable {outer : List (Attribute Extent)}

theorem innerAttribute_alike {N : Nat → Nat → Prop} {m L : Nat} {κ : Option Terminal}
    (hn : 16 * L + 1 ≤ n) (hm : 16 * L + 1 ≤ m) :
    Alike anyTable N (fun _ _ a b => SameAttribute N a b) L e κ (innerAttribute n)
      (innerAttribute m) := by
  rw [innerAttribute, innerAttribute]
  refine Alike.peek_bind fun t => ?_
  split
  · exact docAttribute_alike.mono fun _ _ _ _ _ h => h.2
  · refine Alike.mark_bind fun i j hij => Alike.shift_bind trivial fun i' hi' _ => ?_
    refine Alike.token_bind trivial fun i₂ hi₂ _ => ?_
    exact bracketed_alike hij (by omega) (by omega)
  · exact .refuse

theorem closes_innerAttribute (n : Nat) : Closes [Expected.body] ends false (innerAttribute n) := by
  rw [innerAttribute]
  refine .after peek fun t => ?_
  split
  · exact closes_docAttribute
  · exact .after mark fun _ => .after (shift _) fun _ => .after (token _ _) fun _ =>
      closes_bracketed n
  · exact .refuse

/-- An inner attribute is documentation or starts with its `#`, and its text is that of its tokens.
-/
theorem innerAttribute_text (h : (innerAttribute n).run s = .ok (a, s₁)) :
    (s.next.kind = .innerDoc ∨ s.next.kind = .hash) ∧ a.text.toList =
      s₁.textFrom s.taken.length := by
  rw [innerAttribute, run_peek_bind] at h
  split at h
  · exact ⟨.inl ‹_›, docAttribute_text h⟩
  · rw [run_mark_bind] at h
    obtain ⟨t, r, -, h⟩ := run_shift_bind_eq_ok.mp h
    obtain ⟨t', r', -, -, h⟩ := run_token_bind_eq_ok.mp h
    exact ⟨.inr ‹_›, bracketed_text h⟩
  · simp at h

/-- An inner attribute that has been read in front of what leaves nothing open is read again. -/
theorem innerAttribute_innerRead (h : (innerAttribute n).run s = .ok (a, s₁))
    (he : s.expected = Expected.body) (hn : 16 * s.rest.length + 1 ≤ n) (hs : Shuts s₁.rest) :
    a.InnerRead := by
  obtain ⟨hkind, htext⟩ := innerAttribute_text h
  refine quotes_of_attribute h htext (fun _ => closes_innerAttribute)
    (fun m hm N => innerAttribute_alike hn hm) hs (by simpa using hkind) ?_
  rintro _ rfl t rest -
  rw [he]
  exact t.moves_refl _

/-- A body starts with an inner attribute. -/
theorem bodyAttributes_cons_iff : (bodyAttributes (n + 1)).run s = .ok ((a :: as, outer), s') ↔
    ∃ s₁, (innerAttribute n).run s = .ok (a, s₁) ∧ (bodyAttributes n).run s₁ =
      .ok ((as, outer), s') := by
  have hmore : ∀ {r : Reading (Attribute Extent)} {s : Scan},
      (do let a ← r
          let p ← bodyAttributes n
          return (a :: p.1, p.2)).run s = .ok ((a :: as, outer), s') ↔
        ∃ s₁, r.run s = .ok (a, s₁) ∧ (bodyAttributes n).run s₁ = .ok ((as, outer), s') := by
    intro r s
    constructor
    · intro h
      obtain ⟨b, s₁, hb, h⟩ := run_bind_eq_ok.mp h
      obtain ⟨⟨inner, outer'⟩, s₂, hbs, h⟩ := run_bind_eq_ok.mp h
      simp only [run_pure, Except.ok.injEq, Prod.mk.injEq, List.cons.injEq] at h
      obtain ⟨⟨⟨rfl, rfl⟩, rfl⟩, rfl⟩ := h
      exact ⟨s₁, hb, hbs⟩
    · rintro ⟨s₁, ha, has⟩
      exact run_bind_eq_ok.mpr ⟨a, s₁, ha, run_bind_eq_ok.mpr ⟨(as, outer), s', has, rfl⟩⟩
  rw [bodyAttributes, innerAttribute, run_peek_bind]
  simp only [run_peek_bind]
  cases s.next.kind with
  | innerDoc => exact hmore
  | hash =>
    simp only [run_mark_bind]
    constructor
    · intro h
      obtain ⟨t, r, hnext, h⟩ := run_shift_bind_eq_ok.mp h
      rcases run_optional_bind_eq_ok.mp h with ⟨t', r', hnext', ht', h⟩ | ⟨-, h⟩
      · obtain ⟨s₁, ha, has⟩ := hmore.mp h
        exact ⟨s₁, run_shift_bind_eq_ok.mpr
          ⟨t, r, hnext, run_token_bind_eq_ok.mpr ⟨t', r', hnext', ht', ha⟩⟩, has⟩
      · obtain ⟨b, s₁, -, h⟩ := run_bind_eq_ok.mp h
        obtain ⟨bs, s₂, -, h⟩ := run_bind_eq_ok.mp h
        simp at h
    · rintro ⟨s₁, ha, has⟩
      obtain ⟨t, r, hnext, ha⟩ := run_shift_bind_eq_ok.mp ha
      obtain ⟨t', r', hnext', ht', ha⟩ := run_token_bind_eq_ok.mp ha
      refine run_shift_bind_eq_ok.mpr
        ⟨t, r, hnext, run_optional_bind_eq_ok.mpr (.inl ⟨t', r', hnext', ht', ?_⟩)⟩
      exact hmore.mpr ⟨s₁, ha, has⟩
  | _ =>
    constructor
    · intro h
      obtain ⟨bs, s₂, -, h⟩ := run_bind_eq_ok.mp h
      simp at h
    · rintro ⟨s₁, ha, -⟩
      simp at ha

/-- A body without inner attributes starts with those of its first item. -/
theorem attributes_of_bodyAttributes (h : (bodyAttributes (n + 1)).run s = .ok (([], outer), s')) :
    s.next.kind ≠ .innerDoc ∧ ∃ m ≥ n, (attributes m).run s = .ok (outer, s') := by
  rw [bodyAttributes, run_peek_bind] at h
  split at h
  · obtain ⟨b, s₁, -, h⟩ := run_bind_eq_ok.mp h
    obtain ⟨bs, s₂, -, h⟩ := run_bind_eq_ok.mp h
    simp at h
  · rename_i hhash
    refine ⟨by simp [hhash], n + 1, Nat.le_succ n, ?_⟩
    rw [attributes, run_peek_bind, hhash]
    simp only [run_mark_bind] at h ⊢
    obtain ⟨t, rest, hnext, h⟩ := run_shift_bind_eq_ok.mp h
    refine run_shift_bind_eq_ok.mpr ⟨t, rest, hnext, ?_⟩
    rcases run_optional_bind_eq_ok.mp h with ⟨t', r', -, -, h⟩ | ⟨-, h⟩
    · obtain ⟨b, s₁, -, h⟩ := run_bind_eq_ok.mp h
      obtain ⟨bs, s₂, -, h⟩ := run_bind_eq_ok.mp h
      simp at h
    · obtain ⟨a, s₁, ha, h⟩ := run_bind_eq_ok.mp h
      obtain ⟨bs, s₂, hbs, h⟩ := run_bind_eq_ok.mp h
      obtain ⟨rfl, rfl⟩ : a :: bs = outer ∧ s₂ = s' := by simpa using h
      rw [bracketed] at ha
      obtain ⟨t', rest', hbracket, ht', ha⟩ := run_token_bind_eq_ok.mp ha
      refine run_bind_eq_ok.mpr ⟨a, s₁, ?_, run_bind_eq_ok.mpr ⟨bs, s₂, hbs, rfl⟩⟩
      rw [bracketed]
      -- The bracket is found whether or not a bang could stand there.
      exact run_token_bind_eq_ok.mpr ⟨t', rest', (Next.of_lsqb_iff ht').mpr hbracket, ht', ha⟩
  · rename_i hinner hhash
    obtain ⟨bs, s₁, hbs, h⟩ := run_bind_eq_ok.mp h
    obtain ⟨rfl, rfl⟩ : bs = outer ∧ s₁ = s' := by simpa using h
    exact ⟨hinner, n, le_rfl, hbs⟩

/-- What the attributes of a body are, told by how they were read. -/
theorem bodyAttributes_reads {inner : List (Attribute Extent)}
    (h : (bodyAttributes n).run s = .ok ((inner, outer), s')) (he : s.expected = Expected.body)
    (hn : 16 * s.rest.length + 3 ≤ n) (hs : Shuts s'.rest) :
    (∀ a ∈ inner, a.InnerRead) ∧ (∀ a ∈ outer, a.OuterRead) ∧
      s'.expected = afterAttributes Expected.body outer := by
  induction inner generalizing n s with
  | nil =>
    obtain ⟨n, rfl⟩ : ∃ m, n = m + 1 := ⟨n - 1, by omega⟩
    obtain ⟨-, m, hm, hrun⟩ := attributes_of_bodyAttributes h
    refine ⟨by simp, attributes_outerRead hrun (by omega) hs, ?_⟩
    rw [← he]
    exact attributes_expected hrun
  | cons a inner ih =>
    obtain ⟨n, rfl⟩ : ∃ m, n = m + 1 := ⟨n - 1, by omega⟩
    obtain ⟨s₁, ha, hrun⟩ := bodyAttributes_cons_iff.mp h
    -- Behind an inner attribute a body goes on as it began.
    have hcloses : Closes [Expected.body] [] false (innerAttribute n) := closes_innerAttribute n
    have he₁ : s₁.expected = Expected.body := by
      simpa using hcloses.expected_mem (by simp) ha
    have hlt := (innerAttribute_alike (N := Offset s.taken.length 0) (e := s.expected)
      (κ := none) (n := n) (m := n) (L := s.rest.length) (by omega) (by omega)).lt_of_closes hcloses
      ⟨0, rfl, rfl⟩ ha
    have hlen := (Scan.reaches_of_run ha).rest_lt hlt
    obtain ⟨hinner, houter⟩ := ih hrun he₁ (by omega)
    have hread := innerAttribute_innerRead ha he (by omega)
      (hs.of_suffix (Scan.reaches_of_run hrun).rest_suffix)
    exact ⟨List.forall_mem_cons.mpr ⟨hread, hinner⟩, houter⟩

/-- The attributes of the first item, at the start of a body. -/
theorem bodyAttributes_readsAs {as : List (Attribute σ)} (has : ∀ a ∈ as, a.OuterRead)
    (hg : IsLayout g) (hindent : IsLayout indent) (hz : (Next.of (afterAttributes Expected.body as)
      (lineGap g indent as ++ z)).kind ∉ [Terminal.docComment, .hash, .innerDoc]) :
    ∀ᶠ n in atTop, (bodyAttributes n).ReadsAs
      (fun p => p.1 = [] ∧ as.map Attribute.unplaced = p.2.map Attribute.unplaced) Expected.body
      (g ++ (attributeLines indent as ++ z)) (afterAttributes Expected.body as)
        (lineGap g indent as ++ z) := by
  simp only [List.mem_cons, List.not_mem_nil, or_false, not_or] at hz
  obtain ⟨hkind, hreads⟩ := attributes_readsAs (e := Expected.body) has
    (fun _ => by decide) hg hindent (by simpa using ⟨hz.1, hz.2.1⟩)
  -- A line of documentation or a `#` is at the front, or what follows the attributes is.
  have hinner : (Next.of Expected.body (g ++ (attributeLines indent as ++ z))).kind ≠
      .innerDoc := by
    cases as with
    | nil => exact hz.2.2
    | cons a as =>
      have := hkind (by simp)
      intro h
      rw [h] at this
      simp at this
  refine eventually_of_succ ?_
  filter_upwards [hreads,
    eventually_ge_atTop (16 * (g ++ (attributeLines indent as ++ z)).length + 1)]
      with n hn hlen taken
  obtain ⟨bs, taken', hbs, hrun⟩ := hn taken
  exact ⟨([], bs), taken', ⟨rfl, hbs⟩, bodyAttributes_of_attributes hinner hrun hlen⟩

/-- Inner attributes, each behind a line feed. -/
def innerLines (indent : List Char) (as : List (Attribute σ)) : List Char :=
  as.flatMap fun a => '\n' :: indent ++ a.text.toList

/-- Inner attributes that are written on a line each are read again, in front of the outer ones of
the first item. -/
theorem innerLines_readsAs {inner outer : List (Attribute σ)} {y : List Char}
    (hinner : ∀ a ∈ inner, a.InnerRead) (hindent : IsLayout indent)
    (hy : inner ≠ [] → y.head? = some '\n') (h : ∀ᶠ n in atTop, (bodyAttributes n).ReadsAs
      (fun p => p.1 = [] ∧ outer.map Attribute.unplaced = p.2.map Attribute.unplaced)
        Expected.body y e z) :
    ∀ᶠ n in atTop, (bodyAttributes n).ReadsAs
      (fun p => inner.map Attribute.unplaced = p.1.map Attribute.unplaced ∧
      outer.map Attribute.unplaced = p.2.map Attribute.unplaced) Expected.body
        (innerLines indent inner ++ y) e z := by
  induction inner with
  | nil => exact h.mono fun n hn => hn.mono fun p hp => ⟨by simp [hp.1], hp.2⟩
  | cons a inner ih =>
    obtain ⟨ha, hinner⟩ := List.forall_mem_cons.mp hinner
    have hnext : y.head? = some '\n' := hy (by simp)
    -- Each attribute ends its line.
    have hline : (innerLines indent inner ++ y).head? = some '\n' := by
      cases inner with
      | nil => exact hnext
      | cons => rfl
    have htext : innerLines indent (a :: inner) ++ y =
        '\n' :: indent ++ (a.text.toList ++ (innerLines indent inner ++ y)) := by
      simp [innerLines]
    obtain ⟨-, hone⟩ := ha Expected.body rfl _ (isLayout_line hindent) _ hline
    rw [htext]
    refine eventually_of_succ ?_
    filter_upwards [hone, ih hinner fun _ => hnext] with n hone hmore taken
    obtain ⟨b, taken₁, hb, hrun⟩ := hone taken
    obtain ⟨⟨bs, outer'⟩, taken₂, hbs, hrun'⟩ := hmore taken₁
    exact ⟨(b :: bs, outer'), taken₂, ⟨by simp [hb, hbs.1], hbs.2⟩,
      bodyAttributes_cons_iff.mpr ⟨_, hrun, hrun'⟩⟩

end Grammar
end ShadowImpl
