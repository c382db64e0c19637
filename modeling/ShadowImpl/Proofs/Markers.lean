import ShadowImpl.Proofs.Spans

/-!
# Which attributes are markers

An attribute is a marker by the last name of its path. The path is compared as text, in which
comments are left, so this holds where no comment stands between the last `::` and the name.
-/

namespace ShadowImpl

open Recogniser

/-! ## Ends of paths -/

/-- A text without colons that ends a path is all that stands behind its last `::`. -/
theorem isSuffix_iff_of_colons {x last name : List Char} (hlast : ':' ∉ last) (hname : ':' ∉ name) :
    ':' :: ':' :: name <:+ x ++ ':' :: ':' :: last ↔ last = name := by
  have behind : ∀ {y w : List Char}, ':' ∉ w →
      (y ++ ':' :: ':' :: w).reverse.takeWhile (· ≠ ':') = w.reverse := by
    intro y w hw
    have hall : ∀ c ∈ w.reverse, (c ≠ ':' : Bool) = true := by
      intro c hc
      have : c ≠ ':' := fun h => hw (h ▸ List.mem_reverse.mp hc)
      simpa using this
    rw [List.reverse_append, List.reverse_cons, List.reverse_cons, List.append_assoc,
      List.append_assoc, List.takeWhile_append_of_pos hall]
    simp
  constructor
  · rintro ⟨y, hy⟩
    have htail := congrArg (fun z => z.reverse.takeWhile (· ≠ ':')) hy
    simp only [behind hlast, behind hname] at htail
    exact (List.reverse_injective htail).symm
  · rintro rfl
    exact List.suffix_append x _

namespace Token

/-- No comment stands between the last name of a path and the `::` in front of it. -/
def Bare (us : List Token) (t : Token) : Prop :=
  us = [] ∨ ∀ c ∈ t.gap, isLayout c = true

theorem IsName.not_colon {t : Token} (h : t.IsName) : ':' ∉ t.text := by
  intro hc
  have := h.chars _ hc
  revert this
  decide

theorem IsName.squeeze {t : Token} (h : t.IsName) : Text.squeeze t.text = t.text := by
  refine List.filter_eq_self.mpr fun c hc => ?_
  rw [not_isBlank_of_isVisible (isVisible_of_tokenChar (h.chars c hc))]
  rfl

theorem squeeze_of_layout {g : List Char} (h : ∀ c ∈ g, isLayout c = true) :
    Text.squeeze g = [] := by
  refine List.filter_eq_nil_iff.mpr fun c hc => ?_
  have hlayout := h c hc
  simp only [isLayout, Bool.or_eq_true, beq_iff_eq] at hlayout
  rcases hlayout with (((rfl | rfl) | rfl) | rfl) | rfl <;> decide

theorem squeeze_append (x y : List Char) :
    Text.squeeze (x ++ y) = Text.squeeze x ++ Text.squeeze y :=
  List.filter_append x y

/-- The text of a path is its last name, or ends with it behind a `::`. -/
theorem Path.squeeze_written {us : List Token} {t : Token} (h : Path (us ++ [t]))
    (hbare : Bare us t) :
    Text.squeeze (written (us ++ [t])) = t.text ∨
      ∃ x, Text.squeeze (written (us ++ [t])) = x ++ ':' :: ':' :: t.text := by
  obtain ⟨vs, u, heq, hname, hvs⟩ := h.exists_last
  obtain ⟨rfl, hu⟩ := List.append_inj' heq rfl
  obtain rfl := (List.cons.inj hu).1
  rcases hvs with rfl | ⟨vs, sep, rfl, hsep⟩
  · left
    simpa [written] using hname.squeeze
  · right
    have hgap : Text.squeeze t.gap = [] := squeeze_of_layout (hbare.resolve_left (by simp))
    have hcolons : Text.squeeze [':', ':'] = [':', ':'] := by decide
    rw [written_append_singleton (by simp), squeeze_append, squeeze_append, hgap, hname.squeeze]
    cases vs with
    | nil => exact ⟨[], by simp [written, hsep, hcolons]⟩
    | cons v vs =>
      refine ⟨Text.squeeze (written (v :: vs)) ++ Text.squeeze sep.gap, ?_⟩
      rw [written_append_singleton (by simp), hsep, squeeze_append, squeeze_append, hcolons]
      simp

end Token

/-! ## Markers -/

variable {σ τ : Type}

@[simp] theorem Attribute.isMarker_map (f : σ → τ) (name : String) (a : Attribute σ) :
    (a.map f).isMarker name = a.isMarker name := by
  cases h : a.content <;> simp [isMarker, map, h, Meta.map]

/-- An attribute is the marker that the last name of its path spells. -/
theorem Attribute.isMarker_iff_last {ts us : List Token} {t : Token} {a : Attribute Extent}
    {m : Meta Extent} (hm : a.content = some m) (h : m.PathSound ts)
    (htokens : m.pathTokens ts = us ++ [t]) (hbare : Token.Bare us t) {name : String}
    (hname : ':' ∉ name.toList) : a.isMarker name = true ↔ t.text = name.toList := by
  obtain ⟨hpath, htext⟩ := h
  rw [htokens] at hpath htext
  have hlast : ':' ∉ t.text := by
    obtain ⟨vs, u, heq, hu, -⟩ := hpath.exists_last
    obtain rfl := (List.cons.inj (List.append_inj' heq rfl).2).1
    exact hu.not_colon
  have hmarker : a.isMarker name = true ↔
      m.path.toList = name.toList ∨ ':' :: ':' :: name.toList <:+ m.path.toList := by
    simp [isMarker, hm, String.toList_inj]
  rw [hmarker]
  rcases hpath.squeeze_written hbare with hw | ⟨x, hw⟩ <;> rw [htext, hw]
  · refine or_iff_left fun hsuffix => hlast (hsuffix.subset (by simp))
  · have hne : x ++ ':' :: ':' :: t.text ≠ name.toList := fun heq => hname (heq ▸ by simp)
    simp [hne, isSuffix_iff_of_colons hlast hname]

/-- Which attributes of a block are markers is told by the last names of their paths, as far as no
comments stand in front of these names behind a `::`. -/
theorem Source.markers_by_last_name (s : Source) (b : ImplBlock Location)
    (h : s.implBlock = .ok b) : ∃ b₀ ts, s.ReadBlock b₀ ts ∧
      b.attributes = b₀.attributes.map (Attribute.map (Extent.located s.file s.chars ts)) ∧
      ∀ a ∈ b₀.attributes, ∀ m, a.content = some m → ∃ us t, m.pathTokens ts = us ++ [t] ∧
        (Token.Bare us t → ∀ name : String, ':' ∉ name.toList →
          ((a.map (Extent.located s.file s.chars ts)).isMarker name = true ↔ t.text =
            name.toList)) := by
  obtain ⟨b₀, ts, hp, rfl⟩ := exists_parsed h
  obtain ⟨s', hrun, htokens, -⟩ := Reading.exists_run hp
  refine ⟨b₀, ts, hp, ImplBlock.attributes_map _ b₀, fun a ha m hm => ?_⟩
  have hplaced := ((Grammar.implBlock_placed hrun).attributes a ha).content m hm
  rw [← htokens] at hplaced
  obtain ⟨us, t, hus, -, -⟩ := hplaced.path.tokens.exists_last
  refine ⟨us, t, hus, fun hbare name hname => ?_⟩
  rw [Attribute.isMarker_map]
  exact Attribute.isMarker_iff_last hm hplaced.path hus hbare hname

/-- A path with spaces in it. -/
theorem Source.markers_by_last_name_spaced : ∃ b b₀ ts,
    Source.implBlock ⟨"a.rs", "#[a :: shadow_impl] impl X \x7b #[b] fn f(); \x7d", none⟩ = .ok b ∧
    Source.ReadBlock ⟨"a.rs", "#[a :: shadow_impl] impl X \x7b #[b] fn f(); \x7d", none⟩ b₀ ts ∧
    b.attributes = b₀.attributes.map (Attribute.map (Extent.located "a.rs"
      "#[a :: shadow_impl] impl X \x7b #[b] fn f(); \x7d".toList ts)) ∧
    ∀ a ∈ b₀.attributes, ∀ m, a.content = some m → ∃ us t, m.pathTokens ts = us ++ [t] ∧
      (Token.Bare us t → ∀ name : String, ':' ∉ name.toList →
        ((a.map (Extent.located "a.rs" "#[a :: shadow_impl] impl X \x7b #[b] fn f(); \x7d".toList
          ts)).isMarker name = true ↔ t.text = name.toList)) := by
  obtain ⟨b, hb⟩ := exists_of_isOk (x := Source.implBlock
    ⟨"a.rs", "#[a :: shadow_impl] impl X \x7b #[b] fn f(); \x7d", none⟩) (by decide +kernel)
  obtain ⟨b₀, ts, h⟩ := Source.markers_by_last_name _ b hb
  exact ⟨b, b₀, ts, hb, h⟩

/-- The last names of the paths in a text that is read as a block, and whether the attribute is the
marker `name`. -/
def markersRead (text : List Char) (name : String) : Option (List (Option (List Char) × Bool)) :=
  (Reading.parse Grammar.implBlock Expected.block text).toOption.map fun p =>
    p.value.attributes.map fun a =>
      (a.content.bind fun m => (m.pathTokens p.tokens).getLast?.map Token.text, a.isMarker name)

/-- Comments in front of the last name: one hides a marker, one makes another name look like one. -/
theorem markers_of_comments :
    markersRead "#[shadowgen:: /* c */ shadow_impl] impl X \x7b\x7d".toList "shadow_impl" =
      some [(some "shadow_impl".toList, false)] ∧
    markersRead "#[a:: // ::shadow_\nimpl_] impl X \x7b\x7d".toList "shadow_impl_" =
      some [(some "impl_".toList, true)] := by
  constructor <;> decide +kernel

end ShadowImpl
