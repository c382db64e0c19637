import ShadowImpl.Proofs.MetaPaths
import ShadowImpl.Proofs.Slices

/-!
# The extents of what has been read

While a text is read, places are extents of tokens. Here is what a reading can say of them: the text
that is kept beside an extent is the text of its tokens, and the extents of a block, of its
attributes and of its items follow one another in the order in which these are read.
-/

namespace ShadowImpl

/-! ## Texts and chains of extents -/

namespace Extent

variable {ts us : List Token} {x : Extent} {xs ys : List Extent} {lo mid hi : Nat}

/-- The text at an extent of the tokens. -/
def text (ts : List Token) (x : Extent) : List Char :=
  Token.written ((ts.take x.last).drop x.first)

theorem text_append (h : x.last ≤ ts.length) (us : List Token) : x.text (ts ++ us) = x.text ts := by
  rw [text, text, List.take_append_of_le_length h]

/-- The text at the extent of the latest token. -/
theorem text_latest (t : Token) (ts : List Token) :
    text (ts ++ [t]) ⟨ts.length, ts.length + 1⟩ = t.text := by
  have htake : (ts ++ [t]).take (ts.length + 1) = ts ++ [t] := List.take_of_length_le (by simp)
  simp [text, htake, Token.written]

/-- Extents that follow one another, from token number `lo` up to token number `hi`. -/
def Chain : Nat → Nat → List Extent → Prop
  | lo, hi, [] => lo ≤ hi
  | lo, hi, x :: xs => lo ≤ x.first ∧ x.first < x.last ∧ Chain x.last hi xs

theorem Chain.le (h : Chain lo hi xs) : lo ≤ hi := by
  induction xs generalizing lo with
  | nil => exact h
  | cons x xs ih =>
    obtain ⟨hlo, hx, hxs⟩ := h
    have := ih hxs
    omega

theorem Chain.lt (h : Chain lo hi (x :: xs)) : lo < hi :=
  Nat.lt_of_le_of_lt h.1 (Nat.lt_of_lt_of_le h.2.1 h.2.2.le)

theorem Chain.single (hlo : lo ≤ x.first) (hx : x.first < x.last) (hhi : x.last ≤ hi) :
    Chain lo hi [x] :=
  ⟨hlo, hx, hhi⟩

theorem Chain.append (h : Chain lo mid xs) (h' : Chain mid hi ys) : Chain lo hi (xs ++ ys) := by
  induction xs generalizing lo with
  | nil =>
    cases ys with
    | nil => exact Nat.le_trans h h'
    | cons y ys => exact ⟨Nat.le_trans h h'.1, h'.2⟩
  | cons x xs ih => exact ⟨h.1, h.2.1, ih h.2.2⟩

theorem Chain.after (h : Chain mid hi xs) (hlo : lo ≤ mid) : Chain lo hi xs := by
  have hnil : Chain lo mid [] := hlo
  exact hnil.append h

theorem Chain.before (h : Chain lo mid xs) (hhi : mid ≤ hi) : Chain lo hi xs := by
  have hnil : Chain mid hi [] := hhi
  simpa using h.append hnil

/-- Each extent of a chain lies between its ends. -/
theorem Chain.bounds (h : Chain lo hi xs) (hx : x ∈ xs) :
    lo ≤ x.first ∧ x.first < x.last ∧ x.last ≤ hi := by
  induction xs generalizing lo with
  | nil => simp at hx
  | cons y ys ih =>
    obtain ⟨hlo, hy, hys⟩ := h
    rcases List.mem_cons.mp hx with rfl | hx
    · exact ⟨hlo, hy, hys.le⟩
    · have := ih hys hx
      exact ⟨by omega, this.2⟩

theorem Chain.pairwise (h : Chain lo hi xs) : xs.Pairwise fun x y => x.last ≤ y.first := by
  induction xs generalizing lo with
  | nil => exact .nil
  | cons x xs ih =>
    obtain ⟨-, -, hxs⟩ := h
    exact .cons (fun y hy => (hxs.bounds hy).1) (ih hxs)

end Extent

/-- The text from a token on is that of an extent up to the latest token. -/
theorem Scan.textFrom_eq (s : Scan) (first : Nat) :
    s.textFrom first = Extent.text s.taken.reverse ⟨first, s.taken.length⟩ := by
  rw [textFrom, Extent.text, ← List.drop_reverse, List.take_of_length_le (by simp)]
  cases s.taken.reverse.drop first <;> rfl

/-! ## What is placed -/

/-- An extent of these tokens that is not empty. -/
structure Extent.Proper (ts : List Token) (x : Extent) : Prop where
  nonempty : x.first < x.last
  within : x.last ≤ ts.length

/-- The place of an item. -/
def Item.place {σ : Type} : Item σ → σ
  | .method m => m.place
  | .verbatim v => v.place

/-- The places of an item's attributes and its own. -/
def Item.places {σ : Type} (i : Item σ) : List σ :=
  i.attrs.map Attribute.place ++ [i.place]

/-- All attributes of a block and of its items, in order. -/
def ImplBlock.attributes {σ : Type} (b : ImplBlock σ) : List (Attribute σ) :=
  b.attrs ++ b.innerAttrs ++ b.items.flatMap Item.attrs

/-- The places of a block's attributes, of its self type, of its inner attributes and of its
items, in this order. -/
def ImplBlock.places {σ : Type} (b : ImplBlock σ) : List σ :=
  b.attrs.map Attribute.place ++ [b.selfPlace] ++ b.innerAttrs.map Attribute.place ++
    b.items.flatMap Item.places

/-- A meta item with its path and its list of arguments, if it has one, inside of its extent. -/
structure Meta.Placed (ts : List Token) (m : Meta Extent) : Prop where
  place : m.place.Proper ts
  path : m.PathSound ts
  group : ∀ args g, m.form = .list args g → Extent.Chain m.place.first m.place.last [g]
  sound : m.form.Sound ts

/-- An attribute whose text is that of its extent, which encloses its content. -/
structure Attribute.Placed (ts : List Token) (a : Attribute Extent) : Prop where
  place : a.place.Proper ts
  text : a.text.toList = a.place.text ts
  inside : ∀ m, a.content = some m → Extent.Chain (a.place.first + 1) (a.place.last - 1) [m.place]
  content : ∀ m, a.content = some m → m.Placed ts

/-- A method whose texts are those of extents that follow one another from the start of its own to
its end. -/
structure Method.Placed (ts : List Token) (m : Method Extent) : Prop where
  place : m.place.Proper ts
  parts : ∃ (head params body : Extent) (ret : Option Extent),
    head.first = m.place.first ∧ body.last = m.place.last ∧
    Extent.Chain m.place.first m.place.last (head :: params :: ret.toList ++ [body]) ∧
    m.head.toList = head.text ts ∧ m.params.toList = params.text ts ∧
    m.ret.map String.toList = ret.map (Extent.text ts) ∧ m.body.toList = body.text ts

/-- An item whose text is that of its extent. -/
inductive Item.Placed (ts : List Token) : Item Extent → Prop where
  | method {m : Method Extent} (h : m.Placed ts) : Placed ts (.method m)
  | verbatim {v : VerbatimItem Extent} (place : v.place.Proper ts)
      (text : v.text.toList = v.place.text ts) : Placed ts (.verbatim v)

/-- A block whose text is that of its extent, in which its parts follow one another. -/
structure ImplBlock.Placed (ts : List Token) (b : ImplBlock Extent) : Prop where
  place : b.place.Proper ts
  text : b.text.toList = b.place.text ts
  chain : Extent.Chain b.place.first b.place.last b.places
  attributes : ∀ a ∈ b.attributes, a.Placed ts
  items : ∀ i ∈ b.items, i.Placed ts

theorem Item.Placed.proper {ts : List Token} {i : Item Extent} (h : i.Placed ts) :
    i.place.Proper ts := by
  cases h with
  | method h => exact h.place
  | verbatim place text => exact place

namespace Extent.Proper

/-- Attributes that are laid one behind the other. -/
theorem append {ts : List Token} {x : Extent} (h : x.Proper ts) (us : List Token) :
    x.Proper (ts ++ us) :=
  ⟨h.nonempty, by rw [List.length_append]; exact Nat.le_add_right_of_le h.within⟩

end Extent.Proper

theorem Meta.Placed.append {ts : List Token} {m : Meta Extent} (h : m.Placed ts) (us : List Token) :
    m.Placed (ts ++ us) :=
  ⟨h.place.append us, h.path.append h.place.within us, h.group, h.sound.append us⟩

/-- Tokens that are taken later do not change where an attribute stands. -/
theorem Attribute.Placed.append {ts : List Token} {a : Attribute Extent} (h : a.Placed ts)
    (us : List Token) : a.Placed (ts ++ us) :=
  ⟨h.place.append us, by rw [h.text, Extent.text_append h.place.within], h.inside,
    fun m hm => (h.content m hm).append us⟩

theorem Method.Placed.append {ts : List Token} {m : Method Extent} (h : m.Placed ts)
    (us : List Token) : m.Placed (ts ++ us) := by
  obtain ⟨hplace, head, params, body, ret, hfirst, hlast, hchain, hhead, hparams, hret, hbody⟩ := h
  have htext : ∀ x ∈ head :: params :: ret.toList ++ [body], x.text (ts ++ us) = x.text ts :=
    fun x hx => Extent.text_append (Nat.le_trans (hchain.bounds hx).2.2 hplace.within) us
  refine ⟨hplace.append us, head, params, body, ret, hfirst, hlast, hchain, ?_, ?_, ?_, ?_⟩
  · rw [hhead, htext head (by simp)]
  · rw [hparams, htext params (by simp)]
  · rw [hret]
    cases ret with
    | none => rfl
    | some ret => rw [Option.map_some, Option.map_some, htext ret (by simp)]
  · rw [hbody, htext body (by simp)]

/-- Nor where an item stands. -/
theorem Item.Placed.append {ts : List Token} {i : Item Extent} (h : i.Placed ts) (us : List Token) :
    i.Placed (ts ++ us) := by
  cases h with
  | method h => exact .method (h.append us)
  | verbatim place text =>
    exact .verbatim (place.append us) (by rw [text, Extent.text_append place.within])

/-- What holds of the tokens that have been taken still holds when more are. -/
theorem Scan.Later.placed {P : List Token → Prop} (hP : ∀ ts us, P ts → P (ts ++ us)) {s s' : Scan}
    (h : s.Later s') (hs : P s.taken.reverse) : P s'.taken.reverse := by
  obtain ⟨new, hnew⟩ := h
  rw [hnew]
  exact hP _ new hs

/-- A later scan has taken no fewer tokens. -/
theorem Scan.Later.le {s s' : Scan} (h : s.Later s') : s.taken.length ≤ s'.taken.length := by
  obtain ⟨new, hnew⟩ := h
  have := congrArg List.length hnew
  simp only [List.length_reverse, List.length_append] at this
  omega

namespace Grammar

open Reading

variable {s s' : Scan} {n first : Nat}

/-- An extent up to the latest token. -/
theorem proper_of_lt (h : first < s.taken.length) :
    Extent.Proper s.taken.reverse ⟨first, s.taken.length⟩ :=
  ⟨h, by simp⟩

/-! ## Attributes -/

/-- A list of arguments stands from where it starts to where the reading is. -/
theorem metaForm_placed {f : MetaForm Extent} (h : (metaForm n).run s = .ok (f, s')) {args : String}
    {g : Extent} (hf : f = .list args g) : g = ⟨s.taken.length, s'.taken.length⟩ := by
  have hlist : ∀ {f : MetaForm Extent}, (do
      let first ← mark
      group n
      return MetaForm.list (inside (← textFrom first)) (Extent.mk first (← mark))).run s =
        .ok (f, s') → f = .list args g → g = ⟨s.taken.length, s'.taken.length⟩ := by
    intro f h hf
    rw [run_mark_bind] at h
    obtain ⟨⟨⟩, s₁, -, h⟩ := run_bind_eq_ok.mp h
    rw [run_textFrom_bind, run_mark_bind, run_pure] at h
    obtain ⟨rfl, rfl⟩ : _ = f ∧ s₁ = s' := by simpa using h
    simpa using (MetaForm.list.inj hf).2.symm
  rw [metaForm, run_peek_bind] at h
  split at h
  · exact hlist h hf
  · exact hlist h hf
  · exact hlist h hf
  · obtain ⟨t, r, -, h⟩ := run_shift_bind_eq_ok.mp h
    obtain ⟨⟨⟩, s₁, -, h⟩ := run_bind_eq_ok.mp h
    obtain ⟨rfl, -⟩ : _ = f ∧ _ := by simpa using h
    simp at hf
  · obtain ⟨rfl, -⟩ : _ = f ∧ _ := by simpa using h
    simp at hf

/-- A meta item stands from where it starts to where the reading is. -/
theorem metaItem_placed {m : Meta Extent} (h : (metaItem n).run s = .ok (m, s')) :
    m.place = ⟨s.taken.length, s'.taken.length⟩ ∧ m.Placed s'.taken.reverse := by
  have hlt : s.taken.length < s'.taken.length := Advances.lt_of_run (advances_metaItem n) h
  have hsound := metaItem_sound h
  have hpathSound := metaItem_pathSound h
  rw [metaItem, run_mark_bind] at h
  obtain ⟨path, s₁, hpath, h⟩ := run_bind_eq_ok.mp h
  obtain ⟨form, s₂, hform, h⟩ := run_bind_eq_ok.mp h
  rw [run_mark_bind, run_pure] at h
  obtain ⟨rfl, rfl⟩ : _ = m ∧ s₂ = s' := by simpa using h
  refine ⟨rfl, proper_of_lt hlt, hpathSound, fun args g hf => ?_, hsound⟩
  have hle : s.taken.length < s₁.taken.length := Advances.lt_of_run (advances_metaPath n) hpath
  subst hf
  obtain ⟨ts₁, o, mid, c, ts₂, -, hg, -⟩ := hsound
  obtain rfl := metaForm_placed hform rfl
  obtain ⟨hfirst, hlast⟩ := Extent.mk.inj hg
  exact .single (Nat.le_of_lt hle) (by simp only; omega) (Nat.le_refl _)

/-- Attributes that were read one after the other, from one scan to a later one. -/
structure Laid (s s' : Scan) (as : List (Attribute Extent)) : Prop where
  later : s.Later s'
  chain : Extent.Chain s.taken.length s'.taken.length (as.map Attribute.place)
  placed : ∀ a ∈ as, a.Placed s'.taken.reverse

namespace Laid

variable {s₁ : Scan} {a : Attribute Extent} {as bs : List (Attribute Extent)}

theorem placed_later (h : Laid s s₁ as) (hlater : s₁.Later s') :
    ∀ a ∈ as, a.Placed s'.taken.reverse :=
  fun a ha => hlater.placed (P := fun ts => a.Placed ts) (fun _ us h => h.append us) (h.placed a ha)

/-- Attributes that are laid one behind the other. -/
theorem append (h : Laid s s₁ as) (h' : Laid s₁ s' bs) : Laid s s' (as ++ bs) where
  later := h.later.trans h'.later
  chain := by
    rw [List.map_append]
    exact h.chain.append h'.chain
  placed := by
    intro a ha
    rcases List.mem_append.mp ha with ha | ha
    · exact h.placed_later h'.later a ha
    · exact h'.placed a ha

theorem nil (h : s.Later s') (hle : s.taken.length ≤ s'.taken.length) : Laid s s' [] :=
  ⟨h, hle, by simp⟩

/-- One attribute that takes all tokens between two scans. -/
theorem single (h : s.Later s') (ha : a.place = ⟨s.taken.length, s'.taken.length⟩)
    (hplaced : a.Placed s'.taken.reverse) : Laid s s' [a] where
  later := h
  chain := by
    have := hplaced.place.nonempty
    rw [List.map_singleton, ha]
    rw [ha] at this
    exact .single (Nat.le_refl _) this (Nat.le_refl _)
  placed := by simpa using hplaced

end Laid

theorem docAttribute_placed {style : AttrStyle} {after : Expectation} {a : Attribute Extent}
    (h : (docAttribute style after).run s = .ok (a, s')) : Laid s s' [a] := by
  have hlater := later_of_run h
  rw [docAttribute, run_mark_bind] at h
  obtain ⟨t, r, -, h⟩ := run_shift_bind_eq_ok.mp h
  rw [run_mark_bind, run_pure] at h
  obtain ⟨rfl, rfl⟩ : _ = a ∧ _ = s' := by simpa using h
  refine .single hlater rfl ⟨proper_of_lt (by simp), ?_, by simp, by simp⟩
  simp [← Extent.text_latest t s.taken.reverse]

/-- An attribute that began with a token that has been taken. -/
theorem bracketed_placed {style : AttrStyle} {after : Expectation} {a : Attribute Extent}
    (hfirst : first < s.taken.length) (h : (bracketed style after first n).run s = .ok (a, s')) :
    a.place = ⟨first, s'.taken.length⟩ ∧ a.Placed s'.taken.reverse := by
  rw [bracketed] at h
  obtain ⟨t, r, -, -, h⟩ := run_token_bind_eq_ok.mp h
  obtain ⟨m, s₁, hm, h⟩ := run_bind_eq_ok.mp h
  obtain ⟨t', r', hnext, -, h⟩ := run_token_bind_eq_ok.mp h
  rw [run_textFrom_bind, run_mark_bind, run_pure] at h
  obtain ⟨rfl, rfl⟩ : _ = a ∧ _ = s' := by simpa using h
  obtain ⟨hplace, hplaced⟩ := metaItem_placed hm
  have hlt : s.taken.length + 1 < s₁.taken.length := by
    simpa using Advances.lt_of_run (advances_metaItem n) hm
  refine ⟨rfl, proper_of_lt (by simp; omega), ?_, ?_, ?_⟩
  · rw [String.toList_ofList]
    exact Scan.textFrom_eq _ _
  · rintro _ ⟨⟩
    rw [hplace]
    exact .single (by simp; omega) (by simpa using hlt) (by simp)
  · rintro _ ⟨⟩
    simpa using hplaced.append [t']

/-- Attributes that are read are laid one behind the other. -/
theorem attributes_placed (n : Nat) {s s' : Scan} {as : List (Attribute Extent)}
    (h : (attributes n).run s = .ok (as, s')) : Laid s s' as := by
  induction n generalizing s as with
  | zero => simp [attributes] at h
  | succ n ih =>
    rw [attributes, run_peek_bind] at h
    split at h
    · obtain ⟨a, s₁, ha, h⟩ := run_bind_eq_ok.mp h
      obtain ⟨as', s₂, has, h⟩ := run_bind_eq_ok.mp h
      obtain ⟨rfl, rfl⟩ : _ = as ∧ s₂ = s' := by simpa using h
      exact (docAttribute_placed ha).append (ih has)
    · rw [run_mark_bind] at h
      obtain ⟨t, r, hnext, h⟩ := run_shift_bind_eq_ok.mp h
      obtain ⟨a, s₁, ha, h⟩ := run_bind_eq_ok.mp h
      obtain ⟨as', s₂, has, h⟩ := run_bind_eq_ok.mp h
      obtain ⟨rfl, rfl⟩ : _ = as ∧ s₂ = s' := by simpa using h
      obtain ⟨hplace, hplaced⟩ := bracketed_placed (by simp) ha
      have hlater := (Scan.Takes.token hnext [.lsqb]).later.trans (later_of_run ha)
      exact (Laid.single hlater hplace hplaced).append (ih has)
    · obtain ⟨rfl, rfl⟩ : as = [] ∧ s = s' := by simpa using h
      exact .nil (Scan.Takes.refl s).later (Nat.le_refl _)

/-- The inner attributes stand in front of the outer ones. -/
theorem bodyAttributes_placed (n : Nat) {s s' : Scan}
    {as : List (Attribute Extent) × List (Attribute Extent)}
    (h : (bodyAttributes n).run s = .ok (as, s')) : ∃ s₁, Laid s s₁ as.1 ∧ Laid s₁ s' as.2 := by
  induction n generalizing s as with
  | zero => simp [bodyAttributes] at h
  | succ n ih =>
    -- After an inner attribute the induction goes on. The first outer one ends it.
    have hmore : ∀ {a s₁}, Laid s s₁ [a] →
        (do let as' ← bodyAttributes n
            return (a :: as'.1, as'.2)).run s₁ = .ok (as, s') →
        ∃ s₁, Laid s s₁ as.1 ∧ Laid s₁ s' as.2 := by
      intro a s₁ ha h
      obtain ⟨as', s₂, has, h⟩ := run_bind_eq_ok.mp h
      obtain ⟨rfl, rfl⟩ : _ = as ∧ s₂ = s' := by simpa using h
      obtain ⟨s₃, hinner, houter⟩ := ih has
      exact ⟨s₃, ha.append hinner, houter⟩
    have hnil : Laid s s [] := .nil (Scan.Takes.refl s).later (Nat.le_refl _)
    rw [bodyAttributes, run_peek_bind] at h
    split at h
    · obtain ⟨a, s₁, ha, h⟩ := run_bind_eq_ok.mp h
      exact hmore (docAttribute_placed ha) h
    · rw [run_mark_bind] at h
      obtain ⟨t, r, hnext, h⟩ := run_shift_bind_eq_ok.mp h
      have hhash := (Scan.Takes.token hnext [.bang, .lsqb]).later
      rcases run_optional_bind_eq_ok.mp h with ⟨t', r', hnext', -, h⟩ | ⟨-, h⟩
      · obtain ⟨a, s₁, ha, h⟩ := run_bind_eq_ok.mp h
        obtain ⟨hplace, hplaced⟩ := bracketed_placed (by simp only [List.length_cons]; omega) ha
        have hlater := (hhash.trans (Scan.Takes.token hnext' [.lsqb]).later).trans (later_of_run ha)
        exact hmore (.single hlater hplace hplaced) h
      · obtain ⟨a, s₁, ha, h⟩ := run_bind_eq_ok.mp h
        obtain ⟨as', s₂, has, h⟩ := run_bind_eq_ok.mp h
        obtain ⟨rfl, rfl⟩ : _ = as ∧ s₂ = s' := by simpa using h
        obtain ⟨hplace, hplaced⟩ := bracketed_placed (by simp) ha
        have hlater := hhash.trans (later_of_run ha)
        exact ⟨s, hnil, (Laid.single hlater hplace hplaced).append (attributes_placed n has)⟩
    · obtain ⟨as', s₂, has, h⟩ := run_bind_eq_ok.mp h
      obtain ⟨rfl, rfl⟩ : _ = as ∧ s₂ = s' := by simpa using h
      exact ⟨s, hnil, attributes_placed n has⟩

/-! ## Items -/

/-- The text `w` is that of the tokens from number `first` to the latest one. -/
structure Written (first : Nat) (s : Scan) (w : String) : Prop where
  lt : first < s.taken.length
  text : w.toList = Extent.text s.taken.reverse ⟨first, s.taken.length⟩

namespace Written

/-- A text of some tokens is written as they are. -/
theorem textFrom (h : first < s.taken.length) :
    Written first s (String.ofList (s.textFrom first)) :=
  ⟨h, by rw [String.toList_ofList, Scan.textFrom_eq]⟩

theorem latest (t : Token) (s : Scan) (rest : List Char) (e : Expectation) :
    Written s.taken.length ⟨t :: s.taken, rest, e⟩ (String.ofList t.text) :=
  ⟨by simp, by simp [← Extent.text_latest t s.taken.reverse]⟩

/-- It stays the text of these tokens when more are taken. -/
theorem text_later {w : String} (h : Written first s w) (hlater : s.Later s') :
    w.toList = Extent.text s'.taken.reverse ⟨first, s.taken.length⟩ := by
  obtain ⟨new, hnew⟩ := hlater
  rw [h.text, hnew, Extent.text_append (by simp)]

end Written

/-- The text of a group, with its brackets. -/
theorem groupText_written {w : String}
    (h : (do let first ← mark
             group n
             textFrom first).run s = .ok (w, s')) : Written s.taken.length s' w := by
  rw [run_mark_bind] at h
  obtain ⟨⟨⟩, s₁, hgroup, h⟩ := run_bind_eq_ok.mp h
  obtain ⟨rfl, rfl⟩ : String.ofList (s₁.textFrom s.taken.length) = w ∧ s₁ = s' := by
    simpa [textFrom, run] using h
  exact .textFrom (Advances.lt_of_run (advances_group n) hgroup)

theorem paramText_written {w : String} (h : (paramText n).run s = .ok (w, s')) :
    Written s.taken.length s' w := by
  rw [paramText, run_peek_bind] at h
  split at h
  · exact groupText_written h
  · simp at h

theorem returnText_written {ret : Option String} (h : (returnText n).run s = .ok (ret, s'))
    {w : String} (hret : ret = some w) : Written s.taken.length s' w := by
  subst hret
  rw [returnText, run_peek_bind] at h
  split at h
  · rw [run_mark_bind] at h
    obtain ⟨t, r, -, h⟩ := run_shift_bind_eq_ok.mp h
    obtain ⟨ty, s₁, hty, h⟩ := run_bind_eq_ok.mp h
    rw [run_textFrom_bind, run_pure] at h
    obtain ⟨rfl, rfl⟩ : _ = w ∧ s₁ = s' := by simpa using h
    exact .textFrom (Nat.lt_of_lt_of_le (by simp) (later_of_run hty).le)
  · simp at h

/-- The text of a body, or of the semicolon that stands for it. -/
theorem methodBody_written {w : String} (h : (methodBody n).run s = .ok (w, s')) :
    Written s.taken.length s' w := by
  rw [methodBody, run_peek_bind] at h
  split at h
  · simp only [shift, run] at h
    split at h
    · obtain ⟨rfl, rfl⟩ : _ = w ∧ _ = s' := by simpa using h
      exact .latest _ _ _ _
    · simp at h
  · exact groupText_written h
  · simp at h

/-- The item began with token number `first` and ends with the latest one. -/
structure Sited (first : Nat) (s : Scan) (i : Item Extent) : Prop where
  place : i.place = ⟨first, s.taken.length⟩
  placed : i.Placed s.taken.reverse

section Members

variable {attrs : List (Attribute Extent)} {i : Item Extent}

/-- An item that is kept as it is written stands where its text does. -/
theorem verbatim_sited {kind : ItemKind} (hfirst : first < s.taken.length)
    (h : (do return .verbatim ⟨kind, attrs, ← textFrom first, ⟨first, ← mark⟩⟩ :
      Reading (Item Extent)).run s = .ok (i, s')) : Sited first s' i := by
  rw [run_textFrom_bind, run_mark_bind, run_pure] at h
  obtain ⟨rfl, rfl⟩ : _ = i ∧ s = s' := by simpa using h
  refine ⟨rfl, .verbatim (proper_of_lt hfirst) ?_⟩
  rw [String.toList_ofList, Scan.textFrom_eq]

theorem verbatimRest_sited {kind : ItemKind} (hfirst : first ≤ s.taken.length)
    (h : (verbatimRest kind attrs first n).run s = .ok (i, s')) : Sited first s' i := by
  rw [verbatimRest] at h
  obtain ⟨⟨⟩, s₁, htrees, h⟩ := run_bind_eq_ok.mp h
  obtain ⟨t, r, -, -, h⟩ := run_token_bind_eq_ok.mp h
  have := (later_of_run htrees).le
  exact verbatim_sited (by simp only [List.length_cons]; omega) h

theorem macroCall_sited (h : (macroCall attrs n).run s = .ok (i, s')) :
    Sited s.taken.length s' i := by
  rw [macroCall, run_mark_bind] at h
  obtain ⟨⟨⟩, s₁, hpath, h⟩ := run_bind_eq_ok.mp h
  obtain ⟨⟨⟩, s₂, hgroup, h⟩ := run_bind_eq_ok.mp h
  obtain ⟨_, s₃, hsemi, h⟩ := run_bind_eq_ok.mp h
  have h₁ := Advances.lt_of_run (advances_macroPath n) hpath
  have h₂ := (later_of_run hgroup).le
  have h₃ := (later_of_run hsemi).le
  exact verbatim_sited (by omega) h

/-- A method stands from its head to its body, and its parts stand in between. -/
theorem method_sited (hfirst : first ≤ s.taken.length)
    (h : (method attrs first n).run s = .ok (i, s')) : Sited first s' i := by
  rw [method] at h
  obtain ⟨⟨⟩, s₁, hquals, h⟩ := run_bind_eq_ok.mp h
  obtain ⟨fn, r, -, -, h⟩ := run_token_bind_eq_ok.mp h
  obtain ⟨name, r', -, -, h⟩ := run_token_bind_eq_ok.mp h
  rw [run_textFrom_bind] at h
  generalize hs₂ : Scan.mk (name :: fn :: s₁.taken) r' Expected.afterMethodName = s₂ at h
  obtain ⟨params, s₃, hparams, h⟩ := run_bind_eq_ok.mp h
  obtain ⟨paramText, s₄, htext, h⟩ := run_bind_eq_ok.mp h
  obtain ⟨ret, s₅, hret, h⟩ := run_bind_eq_ok.mp h
  obtain ⟨clause, s₆, hclause, h⟩ := run_bind_eq_ok.mp h
  obtain ⟨body, s₇, hbody, h⟩ := run_bind_eq_ok.mp h
  rw [run_mark_bind, run_pure] at h
  obtain ⟨rfl, rfl⟩ : _ = i ∧ s₇ = s' := by simpa using h
  -- Each part has been written from the tokens that were taken for it,
  have hhead : Written first s₂ (String.ofList (s₂.textFrom first)) := by
    have := (later_of_run hquals).le
    refine .textFrom ?_
    rw [← hs₂]
    simp only [List.length_cons]
    omega
  have hbody' := methodBody_written hbody
  have htext' := paramText_written htext
  have hret' := fun w => returnText_written (w := w) hret
  have h₆ := later_of_run hbody
  have h₅ := (later_of_run hclause).trans h₆
  have h₄ := (later_of_run hret).trans h₅
  have h₂ := ((later_of_run hparams).trans (later_of_run htext)).trans h₄
  -- and these follow each other.
  have hchain : Extent.Chain first s₇.taken.length
      (⟨first, s₂.taken.length⟩ :: ⟨s₃.taken.length, s₄.taken.length⟩ ::
        (ret.map fun _ => (⟨s₄.taken.length, s₅.taken.length⟩ : Extent)).toList ++
          [⟨s₆.taken.length, s₇.taken.length⟩]) := by
    refine ⟨Nat.le_refl _, hhead.lt, (later_of_run hparams).le, htext'.lt, ?_⟩
    have hlast := Extent.Chain.single (x := ⟨s₆.taken.length, s₇.taken.length⟩)
      (later_of_run hclause).le hbody'.lt (Nat.le_refl _)
    cases ret with
    | none => exact hlast.after (later_of_run hret).le
    | some w => exact ⟨Nat.le_refl _, (hret' w rfl).lt, hlast⟩
  refine ⟨rfl, .method ⟨proper_of_lt hchain.lt, ⟨first, s₂.taken.length⟩, _,
    ⟨s₆.taken.length, s₇.taken.length⟩, _, rfl, rfl, hchain, hhead.text_later h₂,
    htext'.text_later h₄, ?_, hbody'.text⟩⟩
  cases ret with
  | none => rfl
  | some w => simp [(hret' w rfl).text_later h₅]

theorem constOrMethod_sited (hfirst : first ≤ s.taken.length)
    (h : (constOrMethod attrs first n).run s = .ok (i, s')) : Sited first s' i := by
  rw [constOrMethod] at h
  obtain ⟨t, r, -, -, h⟩ := run_token_bind_eq_ok.mp h
  rw [run_peek_bind] at h
  split at h
  · obtain ⟨t', r', -, h⟩ := run_shift_bind_eq_ok.mp h
    exact verbatimRest_sited (by simp only [List.length_cons]; omega) h
  · exact method_sited (by simp only [List.length_cons]; omega) h

theorem member_sited (hfirst : first ≤ s.taken.length)
    (h : (member attrs first n).run s = .ok (i, s')) : Sited first s' i := by
  rw [member, run_peek_bind] at h
  split at h
  · obtain ⟨t, r, -, h⟩ := run_shift_bind_eq_ok.mp h
    obtain ⟨t', r', -, -, h⟩ := run_token_bind_eq_ok.mp h
    exact verbatimRest_sited (by simp only [List.length_cons]; omega) h
  · exact constOrMethod_sited hfirst h
  · exact method_sited hfirst h

/-- An item stands from its attributes on, as they do. -/
theorem item_sited (h : (item attrs n).run s = .ok (i, s')) : Sited s.taken.length s' i := by
  rw [item, run_peek_bind] at h
  split at h
  · exact macroCall_sited h
  · rw [run_mark_bind] at h
    obtain ⟨t, r, -, h⟩ := run_shift_bind_eq_ok.mp h
    rw [run_peek_bind] at h
    split at h
    · obtain ⟨⟨⟩, s₁, hgroup, h⟩ := run_bind_eq_ok.mp h
      exact member_sited (Nat.le_trans (by simp) (later_of_run hgroup).le) h
    · exact member_sited (by simp) h
  · exact member_sited (Nat.le_refl _) h

end Members

/-- Items that were read one after the other, each after its attributes. -/
structure LaidItems (s s' : Scan) (is : List (Item Extent)) : Prop where
  later : s.Later s'
  chain : Extent.Chain s.taken.length s'.taken.length (is.flatMap Item.places)
  placed : ∀ i ∈ is, i.Placed s'.taken.reverse
  attrs : ∀ i ∈ is, ∀ a ∈ i.attrs, a.Placed s'.taken.reverse

/-- An item in front of others, after its attributes. -/
theorem LaidItems.cons {s₁ s₂ : Scan} {i : Item Extent} {is : List (Item Extent)}
    (hattrs : Laid s s₁ i.attrs) (hlater : s₁.Later s₂) (hi : Sited s₁.taken.length s₂ i)
    (his : LaidItems s₂ s' is) : LaidItems s s' (i :: is) where
  later := (hattrs.later.trans hlater).trans his.later
  chain := by
    have hplace : Extent.Chain s₁.taken.length s₂.taken.length [i.place] := by
      have := hi.placed.proper.nonempty
      rw [hi.place] at this ⊢
      exact .single (Nat.le_refl _) this (Nat.le_refl _)
    rw [List.flatMap_cons, Item.places]
    exact (hattrs.chain.append hplace).append his.chain
  placed := by
    simp only [List.mem_cons, forall_eq_or_imp]
    exact ⟨his.later.placed (P := fun ts => i.Placed ts) (fun _ us h => h.append us) hi.placed,
      his.placed⟩
  attrs := by
    simp only [List.mem_cons, forall_eq_or_imp]
    exact ⟨hattrs.placed_later (hlater.trans his.later), his.attrs⟩

/-- Items are laid one behind the other. -/
theorem items_laid (n : Nat) {s₀ s s' : Scan} {attrs : List (Attribute Extent)}
    {is : List (Item Extent)} (hattrs : Laid s₀ s attrs)
    (h : (items attrs n).run s = .ok (is, s')) : LaidItems s₀ s' is := by
  induction n generalizing s₀ s attrs is with
  | zero => simp [items] at h
  | succ n ih =>
    have hlater := hattrs.later.trans (later_of_run h)
    rw [items, run_peek_bind] at h
    split at h
    · obtain ⟨t, r, -, h⟩ := run_shift_bind_eq_ok.mp h
      obtain ⟨rfl, -⟩ : is = [] ∧ _ := by simpa using h
      exact ⟨hlater, hlater.le, by simp, by simp⟩
    · obtain ⟨i, s₁, hi, h⟩ := run_bind_eq_ok.mp h
      obtain ⟨as, s₂, has, h⟩ := run_bind_eq_ok.mp h
      obtain ⟨is', s₃, his, h⟩ := run_bind_eq_ok.mp h
      obtain ⟨rfl, rfl⟩ : _ = is ∧ s₃ = s' := by simpa using h
      obtain rfl : i.attrs = attrs := (item_attrs attrs n).of_run hi
      exact .cons hattrs (later_of_run hi) (item_sited hi) (ih (attributes_placed n has) his)

/-! ## Blocks -/

theorem forTy_placed {self : Option (Ty × Extent)}
    (h : (forTy n).run s = .ok (self, s')) {type : Ty} {x : Extent}
    (hself : self = some (type, x)) : Extent.Chain s.taken.length s'.taken.length [x] := by
  subst hself
  rw [forTy] at h
  rcases run_optional_bind_eq_ok.mp h with ⟨t, r, -, -, h⟩ | ⟨-, h⟩
  · rw [if_pos rfl, run_mark_bind] at h
    obtain ⟨ty, s₁, hty, h⟩ := run_bind_eq_ok.mp h
    rw [run_mark_bind, run_pure] at h
    obtain ⟨⟨-, rfl⟩, rfl⟩ : (ty = type ∧ _ = x) ∧ s₁ = s' := by simpa using h
    have hlt := Advances.lt_of_run (advances_ty n) hty
    exact .single (by simp) hlt (Nat.le_refl _)
  · simp at h

/-- A block behind its attributes: its parts stand in it in their order. -/
theorem blockAfter_placed {s₀ : Scan} {attrs : List (Attribute Extent)} {b : ImplBlock Extent}
    (hattrs : Laid s₀ s attrs) (h : (blockAfter attrs s₀.taken.length n).run s = .ok (b, s')) :
    b.Placed s'.taken.reverse := by
  rw [blockAfter] at h
  obtain ⟨isUnsafe, s₁, hunsafe, h⟩ := run_bind_eq_ok.mp h
  obtain ⟨_, s₂, himpl, h⟩ := run_bind_eq_ok.mp h
  obtain ⟨params, s₃, hparams, h⟩ := run_bind_eq_ok.mp h
  rw [run_mark_bind] at h
  obtain ⟨header, s₄, hheader, h⟩ := run_bind_eq_ok.mp h
  rw [run_textFrom_bind, run_mark_bind] at h
  obtain ⟨self, s₅, hself, h⟩ := run_bind_eq_ok.mp h
  obtain ⟨clause, s₆, hclause, h⟩ := run_bind_eq_ok.mp h
  obtain ⟨_, s₇, hbrace, h⟩ := run_bind_eq_ok.mp h
  obtain ⟨as, s₈, has, h⟩ := run_bind_eq_ok.mp h
  obtain ⟨is, s₉, his, h⟩ := run_bind_eq_ok.mp h
  rw [run_textFrom_bind, run_mark_bind] at h
  obtain ⟨s₀', hinner, houter⟩ := bodyAttributes_placed n has
  have hitems := items_laid n houter his
  have h₃ := ((later_of_run hunsafe).trans (later_of_run himpl)).trans (later_of_run hparams)
  have h₇ := (later_of_run hclause).trans (later_of_run hbrace)
  -- Without a `for`, the self type is the one in the header.
  obtain ⟨traitRef, selfTy, x, hx, rfl, rfl⟩ : ∃ traitRef selfTy x,
      Extent.Chain s₃.taken.length s₅.taken.length [x] ∧
      ⟨attrs, isUnsafe, ⟨params, clause⟩, traitRef, selfTy, x, as.1, is,
        String.ofList (s₉.textFrom s₀.taken.length), ⟨s₀.taken.length, s₉.taken.length⟩⟩ = b ∧
      s₉ = s' := by
    cases self with
    | none =>
      have hlt := Advances.lt_of_run (TypesCareful.all n).bareTy hheader
      have hx := Extent.Chain.single (x := ⟨s₃.taken.length, s₄.taken.length⟩) (Nat.le_refl _) hlt
        (later_of_run hself).le
      exact ⟨_, _, _, hx, by simpa using h⟩
    | some self =>
      have hx := (forTy_placed hself rfl).after (later_of_run hheader).le
      exact ⟨_, _, _, hx, by simpa using h⟩
  have hchain : Extent.Chain s₀.taken.length s₉.taken.length (attrs.map Attribute.place ++ [x] ++
      as.1.map Attribute.place ++ is.flatMap Item.places) :=
    (((hattrs.chain.before h₃.le).append (hx.before h₇.le)).append hinner.chain).append hitems.chain
  have hlt : s₀.taken.length < s₉.taken.length := by
    obtain ⟨hlo, hx', hhi⟩ := hchain.bounds (x := x) (by simp)
    omega
  refine ⟨proper_of_lt hlt, ?_, hchain, ?_, hitems.placed⟩
  · rw [String.toList_ofList, Scan.textFrom_eq]
  · have hrest := hinner.later.trans hitems.later
    simp only [ImplBlock.attributes, List.mem_append, List.mem_flatMap]
    rintro a ((ha | ha) | ⟨i, hi, ha⟩)
    · exact hattrs.placed_later (((h₃.trans (later_of_run hheader)).trans
        (later_of_run hself)).trans (h₇.trans hrest)) a ha
    · exact hinner.placed_later hitems.later a ha
    · exact hitems.attrs i hi a ha

/-- All parts of a block that is read stand where they have been read. -/
theorem implBlock_placed {b : ImplBlock Extent} (h : (implBlock n).run s = .ok (b, s')) :
    b.Placed s'.taken.reverse := by
  rw [implBlock_eq, run_mark_bind] at h
  obtain ⟨attrs, s₁, hattrs, h⟩ := run_bind_eq_ok.mp h
  exact blockAfter_placed (attributes_placed n hattrs) h

end Grammar
end ShadowImpl
