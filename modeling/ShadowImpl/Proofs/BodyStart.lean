import ShadowImpl.Proofs.BlockParts
import ShadowImpl.Proofs.Endings

/-!
# The start of a body

Behind the opening brace of a block more can be read than at the start of an item: documentation of
the block itself, which is a comment in front of an item that stands alone, and the closing brace.
Apart from that the two start alike.
-/

namespace ShadowImpl

open Lexeme Recogniser

variable {x r : List Char} {l : Lexeme} {k n : Nat} {t : Token} {s s' : Scan}
  {as outer inner : List (Attribute Extent)}

/-! ## Documentation of the block -/

/-- The first lexeme of an item is that of a body, but for a comment that documents the block. -/
theorem first_body (h : first Expected.item x = some (l, k)) :
    first Expected.body x = some (l, k) ∨
      l = .comment ∧ first Expected.body x = some (.terminal .innerDoc, k) := by
  obtain ⟨hl, ht, hr, hb⟩ := first_eq_some_iff.mp h
  have more : ∀ m ∈ order, m.tried Expected.item = true → m.tried Expected.body = true := by decide
  have only : ∀ m ∈ order, m.tried Expected.body = true →
      m.tried Expected.item = true ∨ m = .terminal .innerDoc ∨ m = .terminal .rbrace := by decide
  have brace_last : ∀ m ∈ order, m.tried Expected.item = true → .terminal .rbrace ∉ before m := by
    decide
  -- In a body two more classes are tried: documentation of the block, and the closing brace.
  cases hinner : innerDoc x with
  | none =>
    refine .inl (first_eq_some_iff.mpr ⟨hl, more l hl ht, hr, fun m hm hm' => ?_⟩)
    rcases only m ((List.takeWhile_sublist _).subset hm) hm' with hitem | rfl | rfl
    · exact hb m hm hitem
    · exact hinner
    · exact absurd hm (brace_last l hl ht)
  | some j =>
    have hcomment := comment_of_innerDoc hinner
    have places : ∀ m ∈ order, m.tried Expected.item = true →
        m = .comment ∨ .comment ∈ before m ∨ before m = [] := by decide
    rcases places l hl ht with rfl | hbefore | hfirst
    · obtain rfl : j = k := Option.some.inj (hcomment.symm.trans hr)
      refine .inr ⟨rfl, first_eq_some_iff.mpr ⟨by decide, by decide, hinner, fun m hm hm' => ?_⟩⟩
      obtain rfl : m = .terminal .docComment := by
        have : ∀ m ∈ before (.terminal .innerDoc), m.tried Expected.body = true →
            m = .terminal .docComment := by decide
        exact this m hm hm'
      exact hb _ (by decide) (by decide)
    · have := hb _ hbefore rfl
      simp [recognise, hcomment] at this
    · exact .inl (first_eq_some_iff.mpr ⟨hl, more l hl ht, hr, by simp [hfirst]⟩)

/-- The first token of an item stands next in a body, or behind documentation of the block. -/
theorem Next.of_body (h : Next.of Expected.item x = .token t r) :
    Next.of Expected.body x = .token t r ∨
      ∃ d y g, Next.of Expected.body x = .token d y ∧ d.kind = .innerDoc ∧
        Next.of Expected.item y = .token ⟨t.kind, g, t.text⟩ r := by
  have hf := Next.found Expected.item x
  rw [h] at hf
  generalize hn : Next.token t r = m at hf
  -- By induction on what is skipped in front of the token. A comment there may document the block.
  induction hf generalizing t with
  | ended | unknown => simp at hn
  | @token x u k hu =>
    obtain ⟨rfl, rfl⟩ := Next.token.inj hn
    rcases first_body hu with hbody | ⟨hcomment, -⟩
    · exact .inl (Next.of_token hbody)
    · cases hcomment
  | @skip x l k m hl hskip rest ih =>
    cases m with
    | ended | unknown => simp [Next.prepend] at hn
    | token t' r' =>
      obtain ⟨rfl, rfl⟩ := Next.token.inj hn
      rcases first_body hl with hbody | ⟨-, hbody⟩
      · rw [Next.of_skip hbody hskip]
        rcases ih rest.eq_of rfl with hnext | ⟨d, y, g, hnext, hd, hy⟩
        · exact .inl (by rw [hnext, Next.prepend])
        · exact .inr ⟨⟨d.kind, x.take k ++ d.gap, d.text⟩, y,
            g, by rw [hnext, Next.prepend], hd, hy⟩
      · exact .inr ⟨_, _, t'.gap, Next.of_token hbody, rfl, rest.eq_of⟩

theorem kind_ne_innerDoc (h : Next.of Expected.item x = .token t r) : t.kind ≠ .innerDoc := by
  intro ht
  have hfirst := first_of_token h (by simp [ht, Terminal.keywords])
  rw [ht] at hfirst
  exact absurd (first_eq_some hfirst).1 (by decide)

/-- An opening bracket is found where it is expected alone as it is where a bang could stand. -/
theorem Next.of_lsqb_iff (ht : t.kind = .lsqb) :
    Next.of [.lsqb] x = .token t r ↔ Next.of [.bang, .lsqb] x = .token t r := by
  have hmove : ∀ e ∈ [[Terminal.lsqb], [.bang, .lsqb]], ∀ e' ∈ [[Terminal.lsqb], [.bang, .lsqb]],
      Next.of e x = .token t r → Next.of e' x = .token t r := by
    intro e he e' he' h
    have hfinds : ∀ e ∈ [[Terminal.lsqb], [.bang, .lsqb]], finds e .lsqb = true ∧
        Terminal.docComment ∉ e ∧ Terminal.innerDoc ∉ e := by
      decide
    have htext : t.text = Terminal.lsqb.spelling := by
      rw [Next.text_of_token h (by simp [ht, Terminal.symbols]), ht]
    have hgap : Gap e' t.gap := (gap_of_token h).expect
      (fun h => absurd h (hfinds e' he').2.1) fun h => absurd h (hfinds e' he').2.2
    have hof := hgap.of_token (of_symbol_front (z := r) (hfinds e' he').1)
    rw [(Next.of_eq_token h).1, htext, List.append_assoc, hof, ← htext, ← ht]
  exact ⟨hmove _ (by simp) _ (by simp), hmove _ (by simp) _ (by simp)⟩

namespace Grammar

open Reading

theorem attributes_depth {m : Nat} (h : (attributes n).run s = .ok (as, s'))
    (hn : 16 * s.rest.length + 1 ≤ n) (hm : 16 * s.rest.length + 1 ≤ m) :
    (attributes m).run s = .ok (as, s') := by
  obtain ⟨hok, -⟩ := follow (attributes_alike n (κ := none) hn hm) eq_lockstep rfl rfl (by simp)
    (Nat.le_refl _)
  obtain ⟨bs, s₁, -, hrun, hsame, rfl⟩ := hok as s' h trivial
  rw [hrun, attributes_eq_of_related hsame]

/-- Where no documentation of the block stands next, the attributes are those of an item. -/
theorem bodyAttributes_of_attributes (hkind : s.next.kind ≠ .innerDoc)
    (h : (attributes n).run s = .ok (as, s')) (hn : 16 * s.rest.length + 1 ≤ n) :
    (bodyAttributes (n + 1)).run s = .ok (([], as), s') := by
  rw [bodyAttributes, run_peek_bind]
  split
  · contradiction
  · rename_i hhash
    have h' := attributes_depth h hn (Nat.le_succ_of_le hn)
    rw [attributes, run_peek_bind, hhash] at h'
    simp only [run_mark_bind] at h' ⊢
    obtain ⟨t, rest, hnext, h'⟩ := run_shift_bind_eq_ok.mp h'
    refine run_shift_bind_eq_ok.mpr ⟨t, rest, hnext, ?_⟩
    obtain ⟨a, s₁, ha, h'⟩ := run_bind_eq_ok.mp h'
    obtain ⟨bs, s₂, hbs, h'⟩ := run_bind_eq_ok.mp h'
    obtain ⟨rfl, rfl⟩ : a :: bs = as ∧ s₂ = s' := by simpa using h'
    rw [bracketed] at ha
    obtain ⟨t', rest', hbracket, ht', ha⟩ := run_token_bind_eq_ok.mp ha
    -- Behind the `#` stands a bracket, and so no bang.
    have hbracket' := (Next.of_lsqb_iff ht').mp hbracket
    refine run_optional_bind_eq_ok.mpr (.inr ⟨?_, ?_⟩)
    · rw [Scan.next, hbracket', Next.kind, ht']
      decide
    · refine run_bind_eq_ok.mpr ⟨a, s₁, ?_, run_bind_eq_ok.mpr ⟨bs, s₂, hbs, rfl⟩⟩
      rw [bracketed]
      exact run_token_bind_eq_ok.mpr ⟨t', rest', hbracket', ht', ha⟩
  · exact run_bind_eq_ok.mpr ⟨as, s', h, rfl⟩

/-- At the start of a body, behind the documentation of the block, the first token of the
item stands next. -/
theorem exists_bodyStart (h : Next.of Expected.item x = .token t r) (taken : List Token)
    (hn : x.length < n) :
    ∃ inner s m g, s.next = .token ⟨t.kind, g, t.text⟩ r ∧
      s.rest.length ≤ x.length ∧ n + s.rest.length ≤ m + x.length ∧
      ∀ outer s', (bodyAttributes m).run s = .ok (([], outer), s') →
        (bodyAttributes n).run ⟨taken, x, Expected.body⟩ = .ok ((inner, outer), s') := by
  induction n generalizing x t taken with
  | zero => omega
  | succ n ih =>
    rcases Next.of_body h with hnext | ⟨d, y, g, hnext, hd, hy⟩
    · exact ⟨[], ⟨taken, x, Expected.body⟩, n + 1, t.gap, hnext, Nat.le_refl _, Nat.le_refl _,
        fun _ _ hrun => hrun⟩
    · have hlen := (Scan.Takes.token (s := ⟨taken, x, Expected.body⟩) hnext Expected.body).2
      have htext := List.length_pos_iff.mpr (Next.text_ne_nil_of_token hnext)
      replace hlen := congrArg List.length hlen
      simp only [Token.spelled_cons, Token.spelled_nil, List.append_nil, List.length_append] at hlen
      obtain ⟨inner, s, m, g', hstart, hshort, hm, hrun⟩ := ih hy (d :: taken) (by omega)
      refine ⟨⟨.inner, none, String.ofList d.text, ⟨taken.length, taken.length + 1⟩⟩ ::
        inner, s, m, g', hstart, by omega, by omega, fun outer s' h => ?_⟩
      rw [bodyAttributes, run_peek_bind,
        show (Scan.mk taken x Expected.body).next.kind = .innerDoc by
        rw [Scan.next, hnext, Next.kind, hd]]
      refine run_bind_eq_ok.mpr ⟨_, _, ?_, run_bind_eq_ok.mpr ⟨_, _, hrun outer s' h, rfl⟩⟩
      exact docAttribute_eq_ok.mpr ⟨d, y, hnext, rfl, rfl⟩

/-! ## The header -/

section Header

variable {u v w : Token} {x₁ x₂ x₃ : List Char}

/-- A path of one name in front of a brace. -/
theorem path_of_brace (hname : s.next = .token v x₂) (hv : v.kind = .ident)
    (hbrace : Next.of Expected.afterType x₂ = .token w x₃) (hw : w.kind = .lbrace) (n : Nat) :
    (path (n + 4)).run s = .ok (⟨[⟨String.ofList v.text, none⟩], false⟩,
      ⟨v :: s.taken, x₂, Expected.afterType⟩) := by
  have hkind : (Scan.mk (v :: s.taken) x₂ Expected.afterType).next.kind = .lbrace := by
    rw [Scan.next, hbrace, Next.kind, hw]
  -- A brace is no arguments and no `::`.
  have hargs : (segmentArgs (n + 1)).run ⟨v :: s.taken, x₂, Expected.afterType⟩ =
      .ok (none, ⟨v :: s.taken, x₂, Expected.afterType⟩) := by
    rw [segmentArgs, run_peek_bind, hkind]
    rfl
  have hmore : (moreSegments ⟨String.ofList v.text, none⟩ (n + 1)).run
      ⟨v :: s.taken, x₂, Expected.afterType⟩ =
        .ok ([⟨String.ofList v.text, none⟩], ⟨v :: s.taken, x₂, Expected.afterType⟩) := by
    rw [moreSegments]
    exact run_optional_bind_eq_ok.mpr (.inr ⟨by rw [hkind]; decide, rfl⟩)
  have hsegments : (segments (n + 3)).run s =
      .ok ([⟨String.ofList v.text, none⟩], ⟨v :: s.taken, x₂, Expected.afterType⟩) := by
    rw [segments]
    refine run_token_bind_eq_ok.mpr ⟨v, x₂, hname, hv, ?_⟩
    rw [segmentsFrom]
    exact run_bind_eq_ok.mpr ⟨_, _, hargs, hmore⟩
  rw [path]
  refine run_optional_bind_eq_ok.mpr (.inr ⟨?_, run_bind_eq_ok.mpr ⟨_, _, hsegments, rfl⟩⟩)
  rw [kind_of_token hname, hv]
  decide

theorem bareTy_of_brace (hname : s.next = .token v x₂) (hv : v.kind = .ident)
    (hbrace : Next.of Expected.afterType x₂ = .token w x₃) (hw : w.kind = .lbrace) (n : Nat) :
    (bareTy (n + 6)).run s = .ok (.path ⟨[⟨String.ofList v.text, none⟩], false⟩,
      ⟨v :: s.taken, x₂, Expected.afterType⟩) := by
  rw [bareTy, run_peek_bind, kind_of_token hname, hv]
  change (plainTy (n + 5)).run s = _
  rw [plainTy, run_peek_bind, kind_of_token hname, hv]
  exact run_bind_eq_ok.mpr ⟨_, _, path_of_brace hname hv hbrace hw n, rfl⟩

/-- The block of a type that is one name, up to its first item. -/
theorem blockHead_of_name (himpl : s.next = .token u x₁) (hu : u.kind = .kwImpl)
    (hname : Next.of Expected.type x₁ = .token v x₂) (hv : v.kind = .ident)
    (hbrace : Next.of Expected.afterType x₂ = .token w x₃) (hw : w.kind = .lbrace)
    (h : (bodyAttributes (n + 6)).run ⟨w :: v :: u :: s.taken, x₃, Expected.body⟩ =
      .ok ((inner, outer), s')) : ∃ b, (blockHead (n + 6)).run s = .ok ((b, outer), s') := by
  -- Each optional part is left out, as the token that stands next starts another one.
  have hattributes : (attributes (n + 6)).run s = .ok ([], s) := by
    rw [attributes, run_peek_bind, kind_of_token himpl, hu]
    rfl
  have hparams : (params (n + 6)).run ⟨u :: s.taken, x₁, Expected.type⟩ =
      .ok ([], ⟨u :: s.taken, x₁, Expected.type⟩) := by
    rw [params]
    exact run_optional_bind_eq_ok.mpr (.inr ⟨by rw [Scan.next, hname, Next.kind, hv]; decide, rfl⟩)
  have htype := bareTy_of_brace (s := ⟨u :: s.taken, x₁, Expected.type⟩) hname hv hbrace hw n
  have hkind : (Scan.mk (v :: u :: s.taken) x₂ Expected.afterType).next.kind = .lbrace := by
    rw [Scan.next, hbrace, Next.kind, hw]
  have hfor : (forTy (n + 6)).run ⟨v :: u :: s.taken, x₂, Expected.afterType⟩ =
      .ok (none, ⟨v :: u :: s.taken, x₂, Expected.afterType⟩) := by
    rw [forTy]
    exact run_optional_bind_eq_ok.mpr (.inr ⟨by rw [hkind]; decide, rfl⟩)
  have hclause : (whereClause (n + 6)).run ⟨v :: u :: s.taken, x₂, Expected.afterType⟩ =
      .ok (none, ⟨v :: u :: s.taken, x₂, Expected.afterType⟩) := by
    rw [whereClause]
    exact run_optional_bind_eq_ok.mpr (.inr ⟨by rw [hkind]; decide, rfl⟩)
  refine ⟨⟨[], false, ⟨[], none⟩, none, .path ⟨[⟨String.ofList v.text, none⟩], false⟩,
    ⟨s.taken.length + 1, s.taken.length + 2⟩, inner, [], "", ⟨s.taken.length, s.taken.length⟩⟩, ?_⟩
  rw [blockHead, run_mark_bind, run_bind_of_ok hattributes]
  refine run_optional_bind_eq_ok.mpr (.inr ⟨by rw [kind_of_token himpl, hu]; decide, ?_⟩)
  refine run_token_bind_eq_ok.mpr ⟨u, x₁, himpl, hu, ?_⟩
  rw [run_bind_of_ok hparams, run_mark_bind, run_bind_of_ok htype,
    run_textFrom_bind, run_mark_bind, run_bind_of_ok hfor, run_bind_of_ok hclause]
  refine run_token_bind_eq_ok.mpr ⟨w, x₃, hbrace, hw, ?_⟩
  exact run_bind_eq_ok.mpr ⟨_, _, h, rfl⟩

end Header

end Grammar
end ShadowImpl
