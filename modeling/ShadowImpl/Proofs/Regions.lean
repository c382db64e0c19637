import ShadowImpl.Directive
import ShadowImpl.Proofs.Alignment
import ShadowImpl.Proofs.ItemDepth
import ShadowImpl.Proofs.Pace

/-!
# Reading a region

A region of a text is read as if the rest of the text were blank. For a region that was found
between brackets this gives what the text of the region gives on its own: the same value or the same
complaint, with all places moved by what stands in front.
-/

namespace ShadowImpl

open Lexeme Recogniser

variable {α β : Type} {e : Expectation} {v g u : List Char}

/-! ## Layout around a text -/

/-- What is left of a text, without and with the layout `u` behind it. -/
def Padded (u : List Char) (e : Expectation) (y y' : List Char) : Prop :=
  y' = y ++ u ∧ Aligned e y

/-- A scan of a text, and one of the same text with `g` in front and `u` behind it. -/
def PaddedStart (g u : List Char) (s s' : Scan) : Prop :=
  s'.expected = s.expected ∧ s'.rest = g ++ (s.rest ++ u) ∧ Aligned s.expected s.rest

theorem PaddedStart.next_eq (hg : ∀ c ∈ g, isLayout c = true) (hu : ∀ c ∈ u, isLayout c = true)
    {s s' : Scan} (h : PaddedStart g u s s') : s'.next = (s.next.extend u).prepend g := by
  rw [Scan.next, Scan.next, h.1, h.2.1, Next.of_layout_append hg, h.2.2.of_append_layout hu]

theorem padded_pace (hg : ∀ c ∈ g, isLayout c = true) (hu : ∀ c ∈ u, isLayout c = true) :
    Reading.Pace Grammar.Follows (Padded u) (PaddedStart g u) where
  kind := by
    rintro e y _ ⟨rfl, hy⟩
    rw [hy.of_append_layout hu, Next.kind_extend]
  take := by
    rintro e e' y _ t r ⟨rfl, hy⟩ hnext hT
    refine ⟨r ++ u, ?_, rfl, hy.after_token hnext hT⟩
    rw [hy.of_append_layout hu, hnext]
    rfl
  startKind := by
    intro s s' h
    rw [h.next_eq hg hu, Next.kind_prepend, Next.kind_extend]
  startTake := by
    intro s s' e t r h hnext hT
    refine ⟨⟨t.kind, g ++ t.gap, t.text⟩, r ++ u, ?_, rfl, rfl, h.2.2.after_token hnext hT⟩
    rw [h.next_eq hg hu, hnext]
    rfl

/-- The same stands next, up to what is passed over in front of it and the layout at the end. -/
theorem next_of_paced (hg : ∀ c ∈ g, isLayout c = true) (hu : ∀ c ∈ u, isLayout c = true)
    {s s' : Scan} (h : Reading.Paced (Padded u) (PaddedStart g u) [] [] s s') :
    ∃ g', s'.next = (s.next.extend u).prepend g' := by
  cases h with
  | start _ h₀ => exact ⟨g, h₀.next_eq hg hu⟩
  | going _ _ he hC =>
    refine ⟨[], ?_⟩
    rw [Scan.next, Scan.next, ← he, hC.1, hC.2.of_append_layout hu, Next.prepend_nil]

/-- Where nothing that is expected can be read, neither layout nor a comment stands. -/
theorem Next.of_eq_unknown {s g r : List Char} (h : Next.of e s = .unknown g r) :
    r ≠ [] ∧ first e r = none := by
  have hf := Next.found e s
  rw [h] at hf
  clear h
  generalize hn : Next.unknown g r = n at hf
  induction hf generalizing g with
  | ended | token => simp at hn
  | unknown hs hnone =>
    obtain ⟨-, rfl⟩ := Next.unknown.inj hn
    exact ⟨hs, hnone⟩
  | @skip s l k n hl hskip rest ih =>
    cases n with
    | ended | token => simp [Next.prepend] at hn
    | unknown g' r' =>
      obtain ⟨-, rfl⟩ := Next.unknown.inj hn
      exact ih rfl

theorem first_ne_none {r : List Char} {l : Lexeme} {k : Nat} (hl : l ∈ order)
    (ht : l.tried e = true) (h : l.recognise r = some k) : first e r ≠ none := by
  intro hn
  rw [first, List.findSome?_eq_none_iff] at hn
  have := hn l hl
  simp [ht, h] at this

/-- Where no token can be read, layout behind the text makes no difference to the complaint. -/
theorem complaint_extend (hu : ∀ c ∈ u, isLayout c = true) {s s' : Scan}
    (h : s'.next = (s.next.extend u).prepend g) : s'.complaint = s.complaint := by
  rw [Scan.complaint, Scan.complaint, h]
  cases hn : s.next with
  | ended | token => rfl
  | unknown g' rest =>
    obtain ⟨hne, hnone⟩ := Next.of_eq_unknown hn
    obtain ⟨c, r, rfl⟩ := List.exists_cons_of_ne_nil hne
    have hlayout : isLayout c = false := by
      by_contra hc
      simp [Next.first_of_layout (by simpa using hc)] at hnone
    -- An unknown rest begins with a visible character, and not with a comment.
    have hcomment : Recogniser.comment (c :: r) = none := by
      cases hr : Recogniser.comment (c :: r) with
      | none => rfl
      | some k => exact absurd hnone (first_ne_none (l := .comment) (by decide) rfl hr)
    have hfirst : first Terminal.all (c :: r ++ u) = first Terminal.all (c :: r) := by
      refine first_append_layout hu ⟨c, by simp, hlayout⟩ fun hs => ?_
      obtain ⟨k, hk⟩ := Next.comment_of_slashes hs
      simp [hk] at hcomment
    simp only [Next.extend, Next.prepend]
    cases hf : first Terminal.all (c :: r) with
    | none =>
      rw [Next.of_unknown (by simp) hf, Next.of_unknown (by simp) (hfirst.trans hf)]
      rfl
    | some p =>
      obtain ⟨l, k⟩ := p
      have hr := (first_eq_some hf).2
      have hk := (first_bounds hf).2
      cases l with
      | layout => exact absurd (starts_of_recognise hr) (by simp [starts, hlayout])
      | comment => exact absurd (hr.symm.trans hcomment) (by simp)
      | terminal t =>
        rw [Next.of_token hf, Next.of_token (hfirst.trans hf), List.take_append_of_le_length hk]

/-! ## Reading all of a text -/

theorem Token.spans_of_sameRun {ts ts' : List Token} {b b' : Nat} (h : SameRun ts ts')
    (hlen : b' + (spelled ts'.reverse).length = b + (spelled ts.reverse).length) :
    spans b' ts'.reverse = spans b ts.reverse := by
  rcases h.cases with ⟨rfl, rfl⟩ | ⟨us, t, t', rfl, rfl, ht⟩
  · rfl
  · simp only [List.reverse_append, List.reverse_cons, List.reverse_nil, List.nil_append,
      List.singleton_append, spelled_cons, List.length_append, ht] at hlen ⊢
    have hgap : b' + t'.gap.length = b + t.gap.length := by omega
    simp [spans, hgap, ht]

theorem Reading.parse_eq (reading : Nat → Reading α) (start : Expectation) (text : List Char) :
    Reading.parse reading start text =
      match (Reading.whole reading (depth text)).run (.start start text) with
      | .ok (a, s) => .ok ⟨a, s.taken.reverse⟩
      | .error s => .error s := by
  rw [parse]
  cases (Reading.whole reading (depth text)).run (.start start text) <;> rfl

/-- The text in front of where a reading of a text ends is that of the tokens taken. -/
theorem Reading.text_of_run {r : Reading α} {text : List Char} {a : α} {s : Scan}
    (h : r.run (.start e text) = .ok (a, s)) : text = Token.spelled s.taken.reverse ++ s.rest := by
  obtain ⟨new, hok, -⟩ := Reading.takes_of_run r (.start e text)
  obtain ⟨htaken, hrest⟩ := hok a s h
  rw [htaken]
  simpa [Scan.start] using hrest

theorem Reading.Alike.finish {T : Expectation → Terminal → Expectation → Prop}
    {N : Nat → Nat → Prop} {L : Nat} {κ : Option Terminal} :
    Reading.Alike T N (fun _ _ _ _ => True) L e κ Reading.finish Reading.finish := by
  rw [Reading.finish]
  refine Reading.Alike.peek_bind fun t => ?_
  split
  · exact Reading.Alike.pure trivial
  · exact .refuse

/-- A reading that is steady is so up to the end of the text. -/
theorem whole_steady {N : Nat → Nat → Prop} {reading : Nat → Reading α} {c n : Nat}
    (h : Grammar.Steady N c reading n) : Grammar.Steady N c (Reading.whole reading) n := by
  intro m L e κ hn hm
  refine h.bind hn hm fun i e' κ' a _ => ?_
  exact Reading.Alike.finish.bind fun _ _ _ _ _ _ _ => Reading.Alike.pure rfl

/-- A text with layout around it gives what it gives alone, with its places moved. -/
theorem parse_padded {reading : Nat → Reading α} (start : Expectation) (hv : Tiled v)
    (hg : ∀ c ∈ g, isLayout c = true) (hu : ∀ c ∈ u, isLayout c = true)
    (h : ∀ n, Grammar.Steady (Offset 0 0) 5 reading n) :
    (∀ p, Reading.parse reading start v = .ok p → ∃ p', Reading.parse reading start
      (g ++ (v ++ u)) = .ok p' ∧ p'.value = p.value ∧ Token.spans 0 p'.tokens =
      Token.spans g.length p.tokens) ∧
    ∀ s, Reading.parse reading start v = .error s → ∃ s', Reading.parse reading start
      (g ++ (v ++ u)) = .error s' ∧ Reading.Paced (Padded u) (PaddedStart g u) [] [] s s' := by
  have hsteady := whole_steady (h (depth v)) (depth (g ++ (v ++ u))) v.length start none
    (by simp [depth]; omega) (by simp [depth]; omega)
  have hstart : Reading.Paced (Padded u) (PaddedStart g u) [] [] (.start start v)
      (.start start (g ++ (v ++ u))) :=
    .start ⟨rfl, rfl, .nil⟩ ⟨rfl, rfl, .inl hv⟩
  obtain ⟨hok, herr⟩ := Reading.follow hsteady ((padded_pace hg hu).lockstep [] []) hstart rfl
    (by simp) (Nat.le_refl _)
  rw [Reading.parse_eq, Reading.parse_eq]
  refine ⟨fun p hp => ?_, fun s hs => ?_⟩
  · cases hrun : (Reading.whole reading (depth v)).run (.start start v) with
    | error => simp [hrun] at hp
    | ok q =>
      obtain ⟨a, s⟩ := q
      obtain ⟨b, s', -, hrun', rfl, hpaced⟩ := hok a s hrun trivial
      simp only [hrun, Except.ok.injEq] at hp
      subst hp
      refine ⟨⟨a, s'.taken.reverse⟩, by rw [hrun'], rfl, ?_⟩
      -- No token has been taken, or the runs of tokens agree from the first one on.
      cases hpaced with
      | start hb =>
        rw [show s.taken = [] by simpa using hb.left, show s'.taken = [] by simpa using hb.right]
        rfl
      | going hb _ _ hC =>
        have hts := Reading.text_of_run hrun
        have hts' := Reading.text_of_run hrun'
        refine Token.spans_of_sameRun ?_ ?_
        · rw [hb.left, hb.right, List.append_nil, List.append_nil]
          exact hb.same
        · have := congrArg List.length hts
          have := congrArg List.length hts'
          simp only [hC.1, List.length_append] at *
          omega
  · cases hrun : (Reading.whole reading (depth v)).run (.start start v) with
    | ok => simp [hrun] at hs
    | error s =>
      obtain ⟨s', hrun', hpaced⟩ := herr s hrun trivial
      simp only [hrun, Except.error.injEq] at hs
      subst hs
      exact ⟨s', by rw [hrun'], hpaced⟩

/-! ## Sources -/

theorem Text.isLayout_of_mem_blank {c : Char} {s : List Char} (h : c ∈ Text.blank s) :
    isLayout c = true := by
  obtain ⟨d, -, rfl⟩ := List.mem_map.mp h
  split <;> rfl

@[simp] theorem Text.length_blank (s : List Char) : (Text.blank s).length = s.length := by
  simp [Text.blank]

/-- A bound that lies in the text stays as it is. -/
theorem Text.bound_of_le {length n : Nat} (h : n ≤ length) : Text.bound length (n : Int) = n := by
  rw [Text.bound, if_neg (by omega), Int.toNat_natCast, Nat.min_eq_left h]

/-- A piece of a text is its slice between the offsets where it starts and stops. -/
theorem Text.slice_append (p v q : List Char) :
    Text.slice (p ++ v ++ q) p.length (p ++ v).length = v := by
  rw [Text.slice, Text.bound_of_le (by simp), Text.bound_of_le (by simp), List.take_left,
    List.drop_left]

/-- A source whose text is `p ++ v ++ q` and of which `v` is read. -/
structure Source.Holds (s : Source) (p v q : List Char) : Prop where
  text : s.text.toList = p ++ v ++ q
  chars : s.chars = Text.blank p ++ (v ++ Text.blank q)

namespace Source

variable {s : Source} {p q : List Char}

theorem holds_whole (file text : String) : Holds ⟨file, text, none⟩ [] text.toList [] :=
  ⟨by simp, by simp [chars, Text.blank]⟩

theorem holds_region (h : s.text.toList = p ++ v ++ q) :
    Holds { s with region := some (p.length, (p ++ v).length) } p v q := by
  refine ⟨h, ?_⟩
  have hfirst : Text.bound (p ++ v ++ q).length p.length = p.length := Text.bound_of_le (by simp)
  have hlast : Text.bound (p ++ v ++ q).length (p ++ v).length = (p ++ v).length :=
    Text.bound_of_le (by simp)
  simp only [chars, h, Text.mask, Text.slice_append, hfirst, hlast]
  rw [List.drop_left, List.append_assoc p v q, List.take_left, List.append_assoc]

variable {goal : Goal} {start : Expectation} {reading : Nat → Reading α}
  {place : (Extent → Location) → α → β}

/-- A source gives what the text that it holds gives alone, with the places moved. -/
theorem parse_eq_ok (hs : s.Holds p v q) (hv : Tiled v)
    (h : ∀ n, Grammar.Steady (Offset 0 0) 5 reading n) {r : Parsed α}
    (hr : Reading.parse reading start v = .ok r) :
    s.parse goal start reading place =
      .ok (place (Extent.location s.file s.chars
        (Token.spans p.length r.tokens).toArray) r.value) := by
  obtain ⟨hok, -⟩ := parse_padded start hv (fun _ => Text.isLayout_of_mem_blank)
    (fun _ => Text.isLayout_of_mem_blank) h (g := Text.blank p) (u := Text.blank q)
  obtain ⟨r', hr', hvalue, hspans⟩ := hok r hr
  simp only [parse, parseM_plain, hs.chars, hr', hvalue, hspans, Text.length_blank]

variable (goal place) in
/-- A source fails where the text that it holds fails alone. -/
theorem parse_paced (hs : s.Holds p v q) (hv : Tiled v)
    (h : ∀ n, Grammar.Steady (Offset 0 0) 5 reading n) {scan : Scan}
    (hr : Reading.parse reading start v = .error scan) :
    ∃ scan', s.parse goal start reading place = .error ⟨.unreadable goal scan.complaint,
        some (.point s.file s.chars (scan'.offset s.chars))⟩ ∧
      Reading.Paced (Padded (Text.blank q)) (PaddedStart (Text.blank p) (Text.blank q)) [] []
        scan scan' := by
  have hblank : ∀ {w : List Char}, ∀ c ∈ Text.blank w, isLayout c = true :=
    fun _ => Text.isLayout_of_mem_blank
  obtain ⟨-, herr⟩ := parse_padded start hv hblank hblank h (g := Text.blank p) (u := Text.blank q)
  obtain ⟨scan', hr', hpaced⟩ := herr scan hr
  obtain ⟨g', hnext⟩ := next_of_paced hblank hblank hpaced
  refine ⟨scan', ?_, hpaced⟩
  simp only [parse, parseM_plain, hs.chars, hr', complaint_extend hblank hnext]

theorem parse_eq_error (hs : s.Holds p v q) (hv : Tiled v)
    (h : ∀ n, Grammar.Steady (Offset 0 0) 5 reading n) {scan : Scan}
    (hr : Reading.parse reading start v = .error scan) :
    ∃ l, s.parse goal start reading place = .error ⟨.unreadable goal scan.complaint, l⟩ := by
  obtain ⟨scan', hscan, -⟩ := parse_paced goal place hs hv h hr
  exact ⟨_, hscan⟩

end Source

/-! ## The lists of a marker's arguments -/

theorem names_steady (n : Nat) : Grammar.Steady (Offset 0 0) 5
    (fun n => Reading.openList (· = .ident) Expected.name (Reading.token .ident [.comma]) n) n := by
  intro m L e κ hn hm
  refine (Reading.Alike.openList (R := Eq) (fun i hi e' κ' => ?_) (fun _ => .inr rfl) (by omega)
    (by omega)).mono fun _ _ as bs _ has => ?_
  · rw [Reading.token]
    refine Reading.Alike.peek_bind fun t => ?_
    split
    · subst t
      cases i with
      | zero => exact .last
      | succ i => exact .take (.inr rfl) fun _ => .done rfl
    · exact .refuse
  · rwa [List.forall₂_eq_eq_eq] at has

/-- Trees that are the same except for their places are the same if their places are. -/
theorem Meta.eq_of_related {m m' : Meta Extent} (h : m.Related (Extent.Related (Offset 0 0)) m') :
    m = m' := by
  have hplace : ∀ {x y : Extent}, Extent.Related (Offset 0 0) x y → x = y := by
    rintro ⟨_, _⟩ ⟨_, _⟩ h
    rw [Extent.mk.injEq]
    exact ⟨h.first.eq, h.last.eq⟩
  rcases m with ⟨path, form, place⟩
  rcases m' with ⟨path', form', place'⟩
  obtain rfl : path = path' := h.path
  obtain rfl : place = place' := hplace h.place
  obtain rfl : form = form' := by
    cases h.form with
    | word | value => rfl
    | list hg => rw [hplace hg]
  rfl

theorem metas_steady (n : Nat) : Grammar.Steady (Offset 0 0) 5
    (fun n => Reading.openList Expected.metaItem.contains Expected.metaItem (Grammar.metaItem n) n)
    n := by
  intro m L e κ hn hm
  refine (Reading.Alike.openList (R := Meta.Related (Extent.Related (Offset 0 0)))
    (fun i hi e' κ' => Grammar.metaItem_alike (by omega) (by omega)) (fun _ => .inr rfl) (by omega)
    (by omega)).mono fun _ _ as bs _ has => ?_
  have := has.imp fun _ _ => Meta.eq_of_related
  rwa [List.forall₂_eq_eq_eq] at this

end ShadowImpl
