import ShadowImpl.Proofs.Extents
import ShadowImpl.Proofs.Stages

/-!
# Locations and the texts they stand for

When a text has been read, extents become locations. A location that is made from an extent cuts the
text of the extent out of the source, and locations keep the order of their extents.
-/

namespace ShadowImpl

/-! ## From extents to offsets -/

/-- The offsets of token number `i`. -/
theorem Token.spans_getElem?_of_lt (b : Nat) {ts : List Token} {i : Nat} (h : i < ts.length) :
    (spans b ts)[i]? = some (b + (spelled (ts.take i) ++ ts[i].gap).length,
      b + (spelled (ts.take (i + 1))).length) := by
  have hspans := spans_getElem? b (ts.take i) ts[i] (ts.drop (i + 1))
  rw [List.getElem_cons_drop, List.take_append_drop, List.length_take,
    Nat.min_eq_left h.le] at hspans
  have htake : spelled (ts.take (i + 1)) = spelled (ts.take i) ++ ts[i].gap ++ ts[i].text := by
    rw [List.take_succ_eq_append_getElem h, spelled_append]
    simp
  rw [hspans, htake]

theorem Token.length_spelled_take_le (ts : List Token) {i j : Nat} (h : i ≤ j) :
    (spelled (ts.take i)).length ≤ (spelled (ts.take j)).length := by
  obtain ⟨us, hus⟩ := List.take_prefix_take_left (l := ts) h
  rw [← hus, spelled_append, List.length_append]
  exact Nat.le_add_right _ _

namespace Extent

variable {ts : List Token} {x y : Extent}

/-- The text in front of an extent. -/
def front (ts : List Token) (x : Extent) : List Char :=
  Token.spelled (ts.take x.first) ++ ts[x.first]?.elim [] Token.gap

/-- The text up to the end of an extent. -/
theorem spelled_take_last (h : x.Proper ts) :
    Token.spelled (ts.take x.last) = x.front ts ++ x.text ts := by
  have hfirst : x.first < (ts.take x.last).length := by
    rw [List.length_take, Nat.min_eq_left h.within]
    exact h.nonempty
  have hlt : x.first < ts.length := Nat.lt_of_lt_of_le h.nonempty h.within
  have hsplit : ts.take x.last = ts.take x.first ++ (ts.take x.last).drop x.first := by
    have := List.take_append_drop x.first (ts.take x.last)
    rw [List.take_take, Nat.min_eq_left h.nonempty.le] at this
    exact this.symm
  rw [hsplit, Token.spelled_append, front, text, List.drop_eq_getElem_cons hfirst]
  simp [Token.written, List.getElem?_eq_getElem hlt]

/-- The location of an extent is that of its text, also where the tokens start behind other text. -/
theorem location_eq (h : x.Proper ts) (file : String) (text : List Char) (b : Nat) :
    x.location file text (Token.spans b ts).toArray =
      .range file text (b + (x.front ts).length) (b + (x.front ts ++ x.text ts).length) := by
  have hlt : x.first < ts.length := Nat.lt_of_lt_of_le h.nonempty h.within
  have hlast : x.last - 1 < ts.length := by
    have := h.nonempty
    have := h.within
    omega
  have hsucc : x.last - 1 + 1 = x.last := Nat.sub_add_cancel (Nat.zero_lt_of_lt h.nonempty)
  rw [← spelled_take_last h, location, List.getElem?_toArray, List.getElem?_toArray,
    Token.spans_getElem?_of_lt b hlt, Token.spans_getElem?_of_lt b hlast, hsucc, front,
    List.getElem?_eq_getElem hlt]
  simp

/-- The text in front of an extent grows with its first token. -/
theorem length_front_le (hx : x.Proper ts) (h : x.first ≤ y.first) :
    (x.front ts).length ≤ (y.front ts).length := by
  rcases Nat.eq_or_lt_of_le h with heq | hlt
  · rw [front, front, heq]
  · have hone : Proper ts ⟨x.first, x.first + 1⟩ :=
      ⟨Nat.lt_succ_self _, Nat.lt_of_lt_of_le hx.nonempty hx.within⟩
    have hfront := congrArg List.length (spelled_take_last hone)
    have hle : (Token.spelled (ts.take (x.first + 1))).length ≤ _ :=
      Token.length_spelled_take_le ts hlt
    simp only [front, List.length_append] at *
    omega

/-- An extent stops before another one starts. -/
theorem length_front_text_le (hx : x.Proper ts) (h : x.last ≤ y.first) :
    (x.front ts ++ x.text ts).length ≤ (y.front ts).length := by
  rw [← spelled_take_last hx, front, List.length_append]
  exact Nat.le_add_right_of_le (Token.length_spelled_take_le ts h)

/-- The location of an extent in the text that has been read. -/
abbrev located (file : String) (text : List Char) (ts : List Token) : Extent → Location :=
  location file text (Token.spans 0 ts).toArray

theorem located_eq (h : x.Proper ts) (file : String) (text : List Char) :
    x.located file text ts =
      .range file text (x.front ts).length (x.front ts ++ x.text ts).length := by
  rw [located, location_eq h, Nat.zero_add, Nat.zero_add]

end Extent

/-! ## Locations -/

/-- A range of a text with the lines and columns of its two ends. -/
structure Location.Accurate (file : String) (source : List Char) (l : Location) : Prop where
  sameFile : l.file = file
  start : 0 ≤ l.start
  order : l.start ≤ l.stop
  stop : l.stop ≤ source.length
  line : l.line = (point file source l.start).line
  column : l.column = (point file source l.start).column
  endLine : l.endLine = (point file source l.stop).line
  endColumn : l.endColumn = (point file source l.stop).column

theorem Location.accurate_range (file : String) {source : List Char} {start stop : Nat}
    (h : start ≤ stop) (h' : stop ≤ source.length) :
    (range file source start stop).Accurate file source := by
  have hstart : min start source.length = start := Nat.min_eq_left (Nat.le_trans h h')
  have hstop : min stop source.length = stop := Nat.min_eq_left h'
  constructor
  all_goals simp only [range, point, Int.toNat_natCast, hstart, hstop]
  all_goals omega

/-- The text at a location. -/
def Location.slice (source : List Char) (l : Location) : List Char :=
  Text.slice source l.start l.stop

/-- One location stops before another one starts. -/
def Location.Before (l l' : Location) : Prop :=
  l.stop ≤ l'.start

/-- One location lies inside of another. -/
def Location.Within (l l' : Location) : Prop :=
  l'.start ≤ l.start ∧ l.stop ≤ l'.stop

/-! ## Spanned trees -/

/-- An attribute that is kept with its own text and its own places. The offsets between the brackets
of its list of arguments are strictly inside of it. -/
structure Attribute.Spanned (file : String) (source : List Char) (a : Attribute Location) :
    Prop where
  place : a.place.Accurate file source
  text : a.text.toList = a.place.slice source
  content : ∀ m, a.content = some m → m.place.Accurate file source ∧ m.place.Within a.place
  args : ∀ m args group, a.content = some m → m.form = .list args group →
    args.toList = Text.slice source (Directive.interior group).1 (Directive.interior group).2 ∧
    a.place.start < (Directive.interior group).1 ∧
    (Directive.interior group).1 ≤ (Directive.interior group).2 ∧
    (Directive.interior group).2 < a.place.stop

/-- A method whose parts stand one after the other in the text at its place, from its start to its
end. -/
structure Method.Spanned (file : String) (source : List Char) (m : Method Location) : Prop where
  place : m.place.Accurate file source
  parts : ∃ x y z, m.place.slice source = m.head.toList ++ x ++ m.params.toList ++ y ++
    (m.ret.getD "").toList ++ z ++ m.body.toList

/-- An item whose text is the one at its place. -/
inductive Item.Spanned (file : String) (source : List Char) : Item Location → Prop where
  | method {m : Method Location} (h : m.Spanned file source) : Spanned file source (.method m)
  | verbatim {v : VerbatimItem Location} (place : v.place.Accurate file source)
      (text : v.text.toList = v.place.slice source) : Spanned file source (.verbatim v)

/-- A block whose parts are where they say, one after the other. -/
structure ImplBlock.Spanned (file : String) (source : List Char) (b : ImplBlock Location) :
    Prop where
  place : b.place.Accurate file source
  text : b.text.toList = b.place.slice source
  selfPlace : b.selfPlace.Accurate file source
  attributes : ∀ a ∈ b.attributes, a.Spanned file source
  items : ∀ i ∈ b.items, i.Spanned file source
  order : b.places.Pairwise Location.Before
  inside : ∀ l ∈ b.places, l.Within b.place

theorem Meta.exists_of_form_map {σ τ : Type} {f : σ → τ} {m : Meta σ} {args : String} {group : τ}
    (h : (m.map f).form = .list args group) : ∃ g, m.form = .list args g ∧ f g = group := by
  rcases m with ⟨path, form, place⟩
  cases form <;> simp [Meta.map, MetaForm.map] at h ⊢
  exact h

section Located

variable {ts : List Token} {x y : Extent} {file : String} {text rest : List Char}

variable (htext : text = Token.spelled ts ++ rest)

include htext

/-- The text split at an extent. -/
theorem Extent.exists_split (hx : x.Proper ts) : ∃ q, text = x.front ts ++ x.text ts ++ q := by
  refine ⟨Token.spelled (ts.drop x.last) ++ rest, ?_⟩
  rw [htext, ← spelled_take_last hx, ← List.append_assoc, ← Token.spelled_append,
    List.take_append_drop]

theorem Extent.accurate_located (hx : x.Proper ts) :
    (x.located file text ts).Accurate file text := by
  obtain ⟨q, hq⟩ := exists_split htext hx
  rw [located_eq hx]
  refine Location.accurate_range file (by simp) ?_
  rw [hq]
  simp

theorem Extent.slice_located (hx : x.Proper ts) :
    (x.located file text ts).slice text = x.text ts := by
  obtain ⟨q, hq⟩ := exists_split htext hx
  rw [located_eq hx, Location.slice, Location.range, hq]
  exact Text.slice_append _ _ q

omit htext in
theorem Extent.before_located (hx : x.Proper ts) (hy : y.Proper ts) (h : x.last ≤ y.first) :
    (x.located file text ts).Before (y.located file text ts) := by
  rw [located_eq hx, located_eq hy]
  exact Int.ofNat_le.mpr (length_front_text_le hx h)

omit htext in
theorem Extent.within_located (hx : x.Proper ts) (hy : y.Proper ts) (h : y.first ≤ x.first)
    (h' : x.last ≤ y.last) : (x.located file text ts).Within (y.located file text ts) := by
  rw [located_eq hx, located_eq hy]
  refine ⟨Int.ofNat_le.mpr (length_front_le hy h), Int.ofNat_le.mpr ?_⟩
  rw [← spelled_take_last hx, ← spelled_take_last hy]
  exact Token.length_spelled_take_le ts h'

theorem Attribute.spanned_of_placed {a : Attribute Extent} (h : a.Placed ts) :
    (a.map (Extent.located file text ts)).Spanned file text := by
  have hplace : ∀ m₀, a.content = some m₀ → m₀.place.Proper ts := fun m₀ hm =>
    (h.content m₀ hm).place
  refine ⟨Extent.accurate_located htext h.place, ?_, fun m hm => ?_,
    fun m args group hm hform => ?_⟩
  · exact h.text.trans (Extent.slice_located htext h.place).symm
  · obtain ⟨m₀, hm₀, rfl⟩ := Option.map_eq_some_iff.mp hm
    obtain ⟨hfirst, -, hlast⟩ := (h.inside m₀ hm₀).bounds List.mem_cons_self
    refine ⟨Extent.accurate_located htext (hplace m₀ hm₀), ?_⟩
    exact Extent.within_located (hplace m₀ hm₀) h.place (by omega) (by omega)
  · obtain ⟨m₀, hm₀, rfl⟩ := Option.map_eq_some_iff.mp hm
    obtain ⟨g, hform₀, rfl⟩ := Meta.exists_of_form_map hform
    obtain ⟨hfirst, -, hlast⟩ := (h.inside m₀ hm₀).bounds List.mem_cons_self
    obtain ⟨hfirst', hne, hlast'⟩ := ((h.content m₀ hm₀).group args g hform₀).bounds
      List.mem_cons_self
    have hg : g.Proper ts := ⟨hne, Nat.le_trans hlast' (hplace m₀ hm₀).within⟩
    have hwithin : (g.located file text ts).Within (a.place.located file text ts) :=
      Extent.within_located hg h.place (by omega) (by omega)
    -- The group is its brackets and the arguments between them.
    have hencloses := (h.content m₀ hm₀).sound
    rw [hform₀] at hencloses
    obtain ⟨p, o, -, c, -, q, -, -, hts, hinterior⟩ :=
      Extent.Encloses.interior_eq hencloses file text 0
    refine ⟨?_, Int.lt_add_one_of_le hwithin.1, ?_, Int.sub_one_lt_of_le hwithin.2⟩
    · rw [hinterior, htext, hts, Nat.zero_add, Nat.zero_add, List.append_assoc _ (c.text ++ q) rest,
        Text.slice_append]
    · rw [hinterior]
      exact Int.ofNat_le.mpr (by simp)

omit htext in
/-- What stands between two extents. -/
theorem Extent.exists_gap (hy : y.Proper ts) (h : x.last ≤ y.first) :
    ∃ g, Token.spelled (ts.take y.last) = Token.spelled (ts.take x.last) ++ g ++ y.text ts := by
  obtain ⟨us, hus⟩ := List.take_prefix_take_left (l := ts) h
  refine ⟨Token.spelled us ++ ts[y.first]?.elim [] Token.gap, ?_⟩
  rw [spelled_take_last hy, front, ← hus, Token.spelled_append]
  simp

theorem Method.spanned_of_placed {m : Method Extent} (h : m.Placed ts) :
    (m.map (Extent.located file text ts)).Spanned file text := by
  refine ⟨Extent.accurate_located htext h.place, ?_⟩
  change ∃ x y z, (m.place.located file text ts).slice text = _
  rw [Extent.slice_located htext h.place]
  obtain ⟨head, params, body, ret, hfirst, hlast, hchain, hhead, hparams, hret, hbody⟩ := h.parts
  have hproper : ∀ x ∈ head :: params :: ret.toList ++ [body], x.Proper ts := fun x hx =>
    ⟨(hchain.bounds hx).2.1, Nat.le_trans (hchain.bounds hx).2.2 h.place.within⟩
  -- The text of the method, behind that of the tokens in front of it
  have hwhole : head.front ts ++ m.place.text ts = Token.spelled (ts.take body.last) := by
    rw [hlast, Extent.spelled_take_last h.place, Extent.front, Extent.front, hfirst]
  obtain ⟨x, hx⟩ := Extent.exists_gap (x := head) (hproper params (by simp)) hchain.2.2.1
  rw [Extent.spelled_take_last (hproper head (by simp))] at hx
  cases ret with
  | none =>
    obtain ⟨y, hy⟩ := Extent.exists_gap (x := params) (hproper body (by simp)) hchain.2.2.2.2.1
    refine ⟨x, y, [], List.append_cancel_left (hwhole.trans ?_)⟩
    have hnone : m.ret = none := by simpa using hret
    rw [hy, hx]
    simp [Method.map, hhead, hparams, hbody, hnone]
  | some ret =>
    obtain ⟨y, hy⟩ := Extent.exists_gap (x := params) (hproper ret (by simp)) hchain.2.2.2.2.1
    obtain ⟨z, hz⟩ := Extent.exists_gap (x := ret) (hproper body (by simp)) hchain.2.2.2.2.2.2.1
    refine ⟨x, y, z, List.append_cancel_left (hwhole.trans ?_)⟩
    obtain ⟨r, hr, hret⟩ := Option.map_eq_some_iff.mp hret
    rw [hz, hy, hx]
    simp [Method.map, hhead, hparams, hbody, hr, hret]

theorem Item.spanned_of_placed {i : Item Extent} (h : i.Placed ts) :
    (i.map (Extent.located file text ts)).Spanned file text := by
  cases h with
  | method h => exact .method (Method.spanned_of_placed htext h)
  | verbatim place htext' =>
    refine .verbatim (Extent.accurate_located htext place) ?_
    exact htext'.trans (Extent.slice_located htext place).symm

omit htext in
theorem Item.attrs_map {σ τ : Type} (f : σ → τ) (i : Item σ) :
    (i.map f).attrs = i.attrs.map (Attribute.map f) := by
  cases i <;> rfl

omit htext in
theorem ImplBlock.attributes_map {σ τ : Type} (f : σ → τ) (b : ImplBlock σ) :
    (b.map f).attributes = b.attributes.map (Attribute.map f) := by
  simp [attributes, ImplBlock.map, List.map_flatMap, List.flatMap_map, Item.attrs_map]

omit htext in
theorem ImplBlock.places_map {σ τ : Type} (f : σ → τ) (b : ImplBlock σ) :
    (b.map f).places = b.places.map f := by
  have hattr : Attribute.place ∘ Attribute.map f = f ∘ Attribute.place := rfl
  have hitem : ∀ i : Item σ, (i.map f).places = i.places.map f := by
    rintro (m | v) <;>
      simp [Item.places, Item.attrs, Item.place, Item.map, Method.map, VerbatimItem.map, hattr]
  simp [places, ImplBlock.map, List.map_flatMap, List.flatMap_map, hitem, hattr]

theorem ImplBlock.spanned_of_placed {b : ImplBlock Extent} (h : b.Placed ts) :
    (b.map (Extent.located file text ts)).Spanned file text := by
  have hproper : ∀ x ∈ b.places, x.Proper ts := fun x hx =>
    ⟨(h.chain.bounds hx).2.1, Nat.le_trans (h.chain.bounds hx).2.2 h.place.within⟩
  refine ⟨Extent.accurate_located htext h.place, ?_, ?_, ?_, ?_, ?_, ?_⟩
  · exact h.text.trans (Extent.slice_located htext h.place).symm
  · exact Extent.accurate_located htext (hproper b.selfPlace (by simp [places]))
  · rw [attributes_map]
    simp only [List.mem_map, forall_exists_index, and_imp, forall_apply_eq_imp_iff₂]
    exact fun a ha => Attribute.spanned_of_placed htext (h.attributes a ha)
  · intro i hi
    obtain ⟨i₀, hi₀, rfl⟩ := List.mem_map.mp hi
    exact Item.spanned_of_placed htext (h.items i₀ hi₀)
  · rw [places_map, List.pairwise_map]
    exact h.chain.pairwise.imp_of_mem fun hx hy =>
      Extent.before_located (hproper _ hx) (hproper _ hy)
  · rw [places_map]
    simp only [List.mem_map, forall_exists_index, and_imp, forall_apply_eq_imp_iff₂]
    intro x hx
    exact Extent.within_located (hproper x hx) h.place (h.chain.bounds hx).1 (h.chain.bounds hx).2.2

end Located

/-! ## Sources -/

/-- The end of a text takes no token. -/
theorem Reading.run_of_whole {α : Type} {reading : Nat → Reading α} {n : Nat} {s s' : Scan} {a : α}
    (h : (whole reading n).run s = .ok (a, s')) : (reading n).run s = .ok (a, s') := by
  rw [whole] at h
  obtain ⟨b, s₁, hrun, h⟩ := run_bind_eq_ok.mp h
  obtain ⟨⟨⟩, s₂, hfinish, h⟩ := run_bind_eq_ok.mp h
  obtain ⟨rfl, rfl⟩ : b = a ∧ s₂ = s' := by simpa using h
  rw [finish, run_peek_bind] at hfinish
  split at hfinish
  · obtain rfl : s₁ = s₂ := by simpa using hfinish
    exact hrun
  · simp at hfinish

/-- A text that can be read was read from tokens that spell it, up to a gap. -/
theorem Reading.exists_run {α : Type} {reading : Nat → Reading α} {start : Expectation}
    {text : List Char} {p : Parsed α} (h : Reading.parse reading start text = .ok p) :
    ∃ s', (reading (depth text)).run (.start start text) = .ok (p.value, s') ∧
      p.tokens = s'.taken.reverse ∧ text = Token.spelled p.tokens ++ s'.rest := by
  rw [parse_eq] at h
  split at h
  · rename_i a s' hrun
    obtain rfl := Except.ok.inj h
    exact ⟨s', run_of_whole hrun, rfl, text_of_run hrun⟩
  · simp at h

theorem Source.exists_run {α β : Type} {s : Source} {goal : Goal} {start : Expectation}
    {reading : Nat → Reading α} {place : (Extent → Location) → α → β} {b : β}
    (h : s.parse goal start reading place = .ok b) :
    ∃ a s', (reading (depth s.chars)).run (.start start s.chars) = .ok (a, s') ∧
      s.chars = Token.spelled s'.taken.reverse ++ s'.rest ∧
      b = place (Extent.located s.file s.chars s'.taken.reverse) a := by
  simp only [parse, parseM_plain] at h
  split at h
  · rename_i p hp
    obtain ⟨s', hrun, htokens, htext⟩ := Reading.exists_run hp
    rw [htokens] at htext h
    exact ⟨p.value, s', hrun, htext, (Except.ok.inj h).symm⟩
  · simp at h

theorem Source.exists_parsed {α β : Type} {s : Source} {goal : Goal} {start : Expectation}
    {reading : Nat → Reading α} {place : (Extent → Location) → α → β} {b : β}
    (h : s.parse goal start reading place = .ok b) :
    ∃ a ts, Reading.parse reading start s.chars = .ok ⟨a, ts⟩ ∧
      b = place (Extent.located s.file s.chars ts) a := by
  simp only [parse, parseM_plain] at h
  split at h
  · rename_i p hp
    exact ⟨p.value, p.tokens, hp, (Except.ok.inj h).symm⟩
  · simp at h

/-- The block is read from these tokens; its places are extents of them. -/
def Source.ReadBlock (s : Source) (b : ImplBlock Extent) (ts : List Token) : Prop :=
  Reading.parse Grammar.implBlock Expected.block s.chars = .ok ⟨b, ts⟩

/-- The item is read from these tokens. -/
def Source.ReadItem (s : Source) (i : Item Extent) (ts : List Token) : Prop :=
  Reading.parse (fun n => do Grammar.item (← Grammar.attributes n) n) Expected.item s.chars =
    .ok ⟨i, ts⟩

/-- Every place in a block that was read from a text is that of what it belongs to: the texts that
are kept are the texts at their places, the parts follow one another inside of the block, and lines
and columns are those of the offsets. -/
theorem Source.implBlock_spanned (file text : String) (b : ImplBlock Location)
    (h : Source.implBlock ⟨file, text, none⟩ = .ok b) : b.Spanned file text.toList := by
  obtain ⟨b₀, s', hrun, htext, rfl⟩ := exists_run h
  exact ImplBlock.spanned_of_placed htext (Grammar.implBlock_placed hrun)

/-- A block with attributes inside and outside, a method and a constant. -/
theorem Source.implBlock_spanned_attributes :
    ∃ b, Source.implBlock ⟨"a.rs",
        "#[m(a)] impl A for X \x7b #![i] /// d\n fn f() -> u8; const N: u8 = 1; \x7d",
          none⟩ = .ok b ∧
      b.Spanned "a.rs"
        "#[m(a)] impl A for X \x7b #![i] /// d\n fn f() -> u8; const N: u8 = 1; \x7d".toList := by
  obtain ⟨b, hb⟩ := exists_of_isOk (x := Source.implBlock ⟨"a.rs",
    "#[m(a)] impl A for X \x7b #![i] /// d\n fn f() -> u8; const N: u8 = 1; \x7d", none⟩)
    (by decide +kernel)
  exact ⟨b, hb, Source.implBlock_spanned _ _ b hb⟩

end ShadowImpl
