import ShadowImpl.Proofs.Constraints
import ShadowImpl.Proofs.Isolation

/-!
# Reading a generated block back

A generated block is text for a compiler, and the tool itself can read blocks. It does not read back
what it generates for a type with a raw name: `Shadow` in front of `r#Foo` is no name any more.
-/

namespace ShadowImpl

open Reading

/-! ## Names -/

/-- A text that the scanner takes for a name, all of it. -/
def IsName (w : List Char) : Prop :=
  Recogniser.ident w = some w.length

theorem isName_of_token {e : Expectation} {x y : List Char} {t : Token}
    (h : Next.of e x = .token t y) (ht : t.kind = .ident) : IsName t.text := by
  obtain ⟨-, v, hkind, hv⟩ := Next.of_eq_token h
  obtain rfl : v = .ident := by
    by_contra hne
    rw [Terminal.settle, if_neg hne] at hkind
    exact hne (hkind.symm.trans ht)
  exact Recogniser.ident_cut (Lexeme.first_eq_some hv).2 (Nat.le_refl _)

/-- With `Shadow` in front, a raw name is no name. -/
theorem not_isName_shadow_raw (w : List Char) : ¬IsName ("Shadow".toList ++ 'r' :: '#' :: w) := by
  intro h
  have hrun : Recogniser.run Recogniser.isWordChar
      ('h' :: 'a' :: 'd' :: 'o' :: 'w' :: 'r' :: '#' :: w) = 6 := rfl
  -- the word ends before the `#`, for only a name that starts with `r#` goes on after it
  have : Recogniser.ident ("Shadow".toList ++ 'r' :: '#' :: w) = some 7 := by
    show Recogniser.word ('S' :: 'h' :: 'a' :: 'd' :: 'o' :: 'w' :: 'r' :: '#' :: w) = _
    rw [Recogniser.word, if_pos (by decide), hrun]
  rw [IsName, this] at h
  simp at h

/-! ## The name of a type -/

/-- The last name of a path is one. -/
def LastNamed (segments : List Segment) : Prop :=
  ∀ last ∈ segments.getLast?, IsName last.ident.toList

theorem LastNamed.cons {last : Segment} {segments : List Segment} (hlast : IsName last.ident.toList)
    (h : LastNamed segments) : LastNamed (last :: segments) := by
  intro s hs
  cases segments with
  | nil =>
    obtain rfl : last = s := by simpa using hs
    exact hlast
  | cons s' segments => exact h s (by simpa using hs)

/-- A type that is a path ends in a name. -/
def Ty.Named : Ty → Prop
  | .path p => LastNamed p.segments
  | _ => True

/-- The last name of a type that is a path. -/
def Ty.lastName? : Ty → Option String
  | .path p => p.segments.getLast?.map Segment.ident
  | _ => none

/-- The type ends in a raw name. -/
def Ty.RawNamed (t : Ty) : Prop :=
  ∃ name, t.lastName? = some name ∧ ['r', '#'] <+: name.toList

theorem Ty.Named.lastName {t : Ty} (h : t.Named) {name : String} (ht : t.lastName? = some name) :
    IsName name.toList := by
  cases t with
  | path p =>
    obtain ⟨last, hlast, rfl⟩ := Option.map_eq_some_iff.mp ht
    exact h last hlast
  | _ => simp [lastName?] at ht

namespace Grammar

theorem segments_named (n : Nat) :
    (∀ s s' segs, (segments n).run s = .ok (segs, s') → LastNamed segs) ∧
    (∀ name : String, IsName name.toList → ∀ s s' segs,
      (segmentsFrom name n).run s = .ok (segs, s') → LastNamed segs) ∧
    ∀ last : Segment, IsName last.ident.toList → ∀ s s' segs,
      (moreSegments last n).run s = .ok (segs, s') → LastNamed segs := by
  -- Behind `::` there may be arguments for the segment that has been read, or another segment.
  induction n with
  | zero => simp [segments, segmentsFrom, moreSegments]
  | succ n ih =>
    obtain ⟨hsegments, hfrom, hmore⟩ := ih
    refine ⟨fun s s' segs h => ?_, fun name hname s s' segs h => ?_,
      fun last hlast s s' segs h => ?_⟩
    · rw [segments] at h
      obtain ⟨t, r, hnext, ht, h⟩ := run_token_bind_eq_ok.mp h
      refine hfrom _ ?_ _ _ _ h
      rw [String.toList_ofList]
      exact isName_of_token hnext ht
    · rw [segmentsFrom] at h
      obtain ⟨args, s₁, -, h⟩ := run_bind_eq_ok.mp h
      exact hmore ⟨name, args⟩ hname _ _ _ h
    · rw [moreSegments] at h
      rcases run_optional_bind_eq_ok.mp h with ⟨t, r, -, -, h⟩ | ⟨-, h⟩
      · rw [if_pos rfl, run_peek_bind] at h
        split at h
        · obtain ⟨args, s₁, -, h⟩ := run_bind_eq_ok.mp h
          exact hmore ⟨last.ident, _⟩ hlast _ _ _ h
        · obtain ⟨segs', s₁, hsegs, h⟩ := run_bind_eq_ok.mp h
          obtain ⟨rfl, -⟩ : last :: segs' = segs ∧ s₁ = s' := by simpa using h
          exact .cons hlast (hsegments _ _ _ hsegs)
      · obtain ⟨rfl, -⟩ : [last] = segs ∧ s = s' := by simpa using h
        exact LastNamed.cons hlast (by simp [LastNamed])

/-- Types that are no paths have no name to end in. -/
theorem other_named (n : Nat) :
    (∀ lifetimes, (fnPtr lifetimes n).Yields Ty.Named) ∧ (refTy n).Yields Ty.Named ∧
      (ptrTy n).Yields Ty.Named ∧ (parenTy n).Yields Ty.Named ∧ (bracketTy n).Yields Ty.Named ∧
      (qualifiedTy n).Yields Ty.Named := by
  cases n with
  | zero => exact ⟨fun _ => trivial, trivial, trivial, trivial, trivial, trivial⟩
  | succ n =>
    refine ⟨fun _ => ?_, ?_, ?_, ?_, ?_, ?_⟩
    · exact .bind fun _ => .bind fun _ => .bind fun _ => .bind fun _ =>
          .bind fun _ => .bind fun _ =>
        trivial
    · refine .bind fun _ => .bind fun t => ?_
      split
      · exact .bind fun _ => .bind fun _ => .bind fun _ => trivial
      · exact .bind fun _ => .bind fun _ => trivial
    · refine .bind fun _ => .bind fun mutable => ?_
      split
      · exact .bind fun _ => trivial
      · exact .bind fun _ => .bind fun _ => trivial
    · refine .bind fun _ => .bind fun closed => ?_
      split
      · exact trivial
      · refine .bind fun _ => .bind fun comma => ?_
        split
        · exact .bind fun _ => trivial
        · exact .bind fun _ => trivial
    · refine .bind fun _ => .bind fun _ => .bind fun closed => ?_
      split
      · exact trivial
      · exact .bind fun _ => .bind fun _ => .bind fun _ => .bind fun _ => .bind fun _ => trivial
    · exact .bind fun _ => .bind fun _ => .bind fun _ => .bind fun _ =>
          .bind fun _ => .bind fun _ =>
        trivial

variable {s s' : Scan} {t : Ty}

theorem path_named {p : Path} (n : Nat) (h : (path n).run s = .ok (p, s')) :
    LastNamed p.segments := by
  cases n with
  | zero => simp [path] at h
  | succ n =>
    rw [path] at h
    obtain ⟨rooted, s₁, -, h⟩ := run_bind_eq_ok.mp h
    obtain ⟨segs, s₂, hsegs, h⟩ := run_bind_eq_ok.mp h
    obtain ⟨rfl, -⟩ : Path.mk segs rooted = p ∧ s₂ = s' := by simpa using h
    exact (segments_named n).1 _ _ _ hsegs

theorem plainTy_named (n : Nat) (h : (plainTy n).run s = .ok (t, s')) : t.Named := by
  cases n with
  | zero => simp [plainTy] at h
  | succ n =>
    obtain ⟨-, hrefTy, hptrTy, hparenTy, hbracketTy, -⟩ := other_named n
    have hpath : ∀ {s₁}, (do return Ty.path (← path n)).run s₁ = .ok (t, s') → t.Named := by
      intro s₁ h
      obtain ⟨p, s₂, hp, h⟩ := run_bind_eq_ok.mp h
      obtain ⟨rfl, -⟩ : Ty.path p = t ∧ s₂ = s' := by simpa using h
      exact path_named n hp
    rw [plainTy, run_peek_bind] at h
    split at h
    · exact hpath h
    · exact hpath h
    · exact hrefTy.of_run h
    · exact hptrTy.of_run h
    · exact hparenTy.of_run h
    · exact hbracketTy.of_run h
    · refine Yields.of_run ?_ h
      exact .bind fun _ => trivial
    · refine Yields.of_run ?_ h
      exact .bind fun _ => .bind fun _ => trivial
    · refine Yields.of_run ?_ h
      exact .bind fun _ => .bind fun _ => trivial
    · simp at h

theorem bareTy_named (n : Nat) (h : (bareTy n).run s = .ok (t, s')) : t.Named := by
  cases n with
  | zero => simp [bareTy] at h
  | succ n =>
    rw [bareTy, run_peek_bind] at h
    split at h
    · obtain ⟨lifetimes, s₁, -, h⟩ := run_bind_eq_ok.mp h
      exact ((other_named n).1 _).of_run h
    iterate 3 exact ((other_named n).1 _).of_run h
    · exact plainTy_named n h

theorem ty_named (n : Nat) (h : (ty n).run s = .ok (t, s')) : t.Named := by
  cases n with
  | zero => simp [ty] at h
  | succ n =>
    rw [ty, run_peek_bind] at h
    split at h
    · exact (other_named n).2.2.2.2.2.of_run h
    · exact bareTy_named n h

/-- The self type of a block that is read ends in a name. -/
theorem selfTy_named {attrs : List (Attribute Extent)} {first n : Nat} {b : ImplBlock Extent}
    (h : (blockAfter attrs first n).run s = .ok (b, s')) : b.selfTy.Named := by
  rw [blockAfter] at h
  obtain ⟨isUnsafe, s₁, -, h⟩ := run_bind_eq_ok.mp h
  obtain ⟨_, s₂, -, h⟩ := run_bind_eq_ok.mp h
  obtain ⟨params, s₃, -, h⟩ := run_bind_eq_ok.mp h
  rw [run_mark_bind] at h
  obtain ⟨header, s₄, hheader, h⟩ := run_bind_eq_ok.mp h
  rw [run_textFrom_bind, run_mark_bind] at h
  obtain ⟨self, s₅, hself, h⟩ := run_bind_eq_ok.mp h
  -- What stands in front is the self type, unless there is a `for`.
  cases self with
  | none =>
    have hb : b.selfTy = header := by
      refine Yields.of_run (P := fun b => b.selfTy = header) ?_ h
      exact .bind fun _ => .bind fun _ => .bind fun _ => .bind fun _ =>
          .bind fun _ => .bind fun _ =>
        rfl
    rw [hb]
    exact bareTy_named n hheader
  | some self =>
    have hb : b.selfTy = self.1 := by
      refine Yields.of_run (P := fun b => b.selfTy = self.1) ?_ h
      exact .bind fun _ => .bind fun _ => .bind fun _ => .bind fun _ =>
          .bind fun _ => .bind fun _ =>
        rfl
    rw [hb]
    rw [forTy] at hself
    rcases run_optional_bind_eq_ok.mp hself with ⟨t, r, -, -, hself⟩ | ⟨-, hself⟩
    · rw [if_pos rfl, run_mark_bind] at hself
      obtain ⟨type, s₆, htype, hself⟩ := run_bind_eq_ok.mp hself
      rw [run_mark_bind] at hself
      obtain ⟨rfl, -⟩ : _ = self ∧ s₆ = s₅ := by simpa using hself
      exact ty_named n htype
    · simp at hself

end Grammar

theorem Source.selfTy_named {s : Source} (hregion : s.region = none) {b : ImplBlock Location}
    (h : s.implBlock = .ok b) : b.selfTy.Named := by
  obtain ⟨b₀, s', hrun, rfl⟩ := (implBlock_eq_ok hregion).mp h
  rw [Reading.whole] at hrun
  obtain ⟨b₁, s₁, hblock, hrun⟩ := run_bind_eq_ok.mp hrun
  obtain ⟨⟨⟩, s₂, -, hrun⟩ := run_bind_eq_ok.mp hrun
  obtain ⟨rfl, -⟩ : b₁ = b₀ ∧ s₂ = s' := by simpa using hrun
  rw [Grammar.implBlock_eq, run_mark_bind] at hblock
  obtain ⟨attrs, s₃, -, hblock⟩ := run_bind_eq_ok.mp hblock
  exact Grammar.selfTy_named hblock

/-! ## What cannot be read back -/

/-- The generated text is read as the generated block, but for places and for the defaults of its
parameters, which are not written. -/
def Expansion.ReadsBack (e : Expansion) (file : String) : Prop :=
  ∃ b, Source.implBlock ⟨file, e.generated, none⟩ = .ok b ∧
    b.unplaced = { e.block.unplaced with generics := e.block.generics.withoutDefaults }

theorem getLast?_shadowSegments {segments shadow : List Segment}
    (h : shadowSegments segments = some shadow) :
    shadow.getLast?.map Segment.ident =
      segments.getLast?.map fun last => "Shadow" ++ last.ident := by
  fun_induction shadowSegments segments generalizing shadow with
  | case1 => simp at h
  | case2 ident args =>
    obtain rfl := Option.some.inj h
    rfl
  | case3 segment segments hne ih =>
    obtain ⟨shadow', h', rfl⟩ := Option.map_eq_some_iff.mp h
    have hlast := ih h'
    obtain ⟨ident, args⟩ := segment
    rcases segments with _ | ⟨s, segments⟩
    · exact (hne ident args rfl rfl).elim
    · cases hshadow : shadow'.getLast? with
      | none => simp [hshadow, List.getLast?_cons] at hlast
      | some last => rw [List.getLast?_cons_cons, ← hlast, List.getLast?_cons, hshadow]; rfl

/-- The shadow of a type has `Shadow` in front of its name. -/
theorem Ty.lastName?_shadow? {t t' : Ty} (h : t.shadow? = some t') :
    t'.lastName? = t.lastName?.map ("Shadow" ++ ·) := by
  cases t with
  | path p =>
    obtain ⟨segments, rooted⟩ := p
    rw [shadow?] at h
    obtain ⟨shadow, hshadow, rfl⟩ := Option.map_eq_some_iff.mp h
    simp only [lastName?, getLast?_shadowSegments hshadow, Option.map_map]
    rfl
  | _ => simp [shadow?] at h

/-- The self type of a generated block is the shadow of the given one. -/
theorem Request.selfTy_shadow {r : Request} {e : Expansion} (h : r.outcome.result = .ok e)
    {b : ImplBlock Location} (hb : r.input.implBlock = .ok b) :
    b.selfTy.shadow? = some e.block.selfTy := by
  obtain ⟨b₁, t, d, hb₁, ht, hmade⟩ := exists_made h
  obtain rfl : b = b₁ := Except.ok.inj (hb.symm.trans hb₁)
  obtain ⟨attrs, hblock⟩ := taskOf_block ht
  have hself := hmade.selfTy
  rw [hblock, Ty.shadow] at hself
  cases hshadow : b.selfTy.shadow? with
  | none => simp [hshadow] at hself
  | some shadow => simpa [hshadow] using hself

/-- No block that is generated for a type with a raw name is read back. -/
theorem not_readsBack_of_raw {r : Request} {e : Expansion} (h : r.outcome.result = .ok e)
    {b : ImplBlock Location} (hb : r.input.implBlock = .ok b) (hraw : b.selfTy.RawNamed)
    (file : String) : ¬ e.ReadsBack file := by
  obtain ⟨name, hname, w, hw⟩ := hraw
  rintro ⟨b', hb', hunplaced⟩
  have hself : b'.unplaced.selfTy = e.block.unplaced.selfTy := by rw [hunplaced]
  have hshadowed : b'.selfTy.lastName? = some ("Shadow" ++ name) := by
    change b'.unplaced.selfTy.lastName? = _
    rw [hself]
    exact (Ty.lastName?_shadow? (Request.selfTy_shadow h hb)).trans (congrArg _ hname)
  have hnamed := (Source.selfTy_named rfl hb').lastName hshadowed
  rw [String.toList_append, ← hw] at hnamed
  exact not_isName_shadow_raw w hnamed

/-- What is generated for the raw name is no block at all. -/
theorem generated_unreadable : ∃ e : Expansion,
    (Expansion.ofSource "#[shadow_impl] impl r#Foo \x7b\x7d" "<input>").result = .ok e ∧
      (Source.implBlock ⟨"<input>", e.generated, none⟩).isOk = false := by
  obtain ⟨e, he⟩ := exists_of_isOk (x := (Expansion.ofSource "#[shadow_impl] impl r#Foo \x7b\x7d"
    "<input>").result) (by decide +kernel)
  have hgenerated : (Expansion.ofSource "#[shadow_impl] impl r#Foo \x7b\x7d"
      "<input>").result.toOption.map Expansion.generated = some "impl Shadowr#Foo \x7b\x7d" := by
    decide +kernel
  have hunread : (Source.implBlock ⟨"<input>", "impl Shadowr#Foo \x7b\x7d", none⟩).isOk =
      false := by
    decide +kernel
  rw [he] at hgenerated
  refine ⟨e, he, ?_⟩
  rw [show e.generated = "impl Shadowr#Foo \x7b\x7d" from Option.some.inj hgenerated]
  exact hunread

end ShadowImpl
