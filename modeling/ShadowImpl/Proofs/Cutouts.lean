import ShadowImpl.Proofs.Directives
import ShadowImpl.Proofs.Spans

/-!
# Arguments that are cut out

The arguments of a marker are read in a copy of the file that is blank around them. Cutting their
text out and reading it alone gives the same: the same values with every offset moved by where the
arguments start, or the same complaint at the same character.
-/

namespace ShadowImpl

open Lexeme Recogniser

/-! ## Visible tokens -/

/-- A token of which something is visible. -/
def Token.Visible (t : Token) : Prop :=
  ∃ c ∈ t.text, Text.isBlank c = false

theorem Next.visible_of_token {e : Expectation} {x r : List Char} {t : Token}
    (h : Next.of e x = .token t r) : t.Visible := by
  obtain ⟨-, v, -, hv⟩ := of_eq_token h
  obtain ⟨c, w, hw⟩ := List.exists_cons_of_ne_nil (text_ne_nil_of_token h)
  rw [hw] at hv
  have hvisible := isVisible_of_starts (starts_of_recognise (first_eq_some hv).2)
  exact ⟨c, by simp [hw], not_isBlank_of_isVisible hvisible⟩

namespace Reading

variable {α : Type} {s s' : Scan}

/-- All tokens that a reading takes are visible. -/
theorem visible_of_run (r : Reading α) {s : Scan} (hs : ∀ t ∈ s.taken, t.Visible) :
    (∀ a s', r.run s = .ok (a, s') → ∀ t ∈ s'.taken, t.Visible) ∧
      ∀ s', r.run s = .error s' → ∀ t ∈ s'.taken, t.Visible := by
  induction r generalizing s with
  | done a => exact ⟨by simpa [run] using hs, by simp [run]⟩
  | refuse => exact ⟨by simp [run], by simpa [run] using hs⟩
  | look k ih => exact ih _ hs
  | count k ih => exact ih _ hs
  | text i k ih => exact ih _ hs
  | take e k ih =>
    simp only [run]
    cases h : s.next with
    | token t rest =>
      refine ih (String.ofList t.text) fun u hu => ?_
      rcases List.mem_cons.mp hu with rfl | hu
      · exact Next.visible_of_token h
      · exact hs u hu
    | ended | unknown => exact ⟨by simp, by simpa using hs⟩

theorem run_finish_of_eof (h : s.next.kind = .eof) : finish.run s = .ok ((), s) := by
  rw [finish, run_peek_bind, if_pos h, run_pure]

/-- A reading that is refused before it has taken a token is refused where it began. -/
theorem eq_of_error {r : Reading α} (h : r.run s = .error s')
    (hlen : s'.taken.length ≤ s.taken.length) : s' = s := by
  induction r generalizing s with
  | done a => simp [run] at h
  | refuse => simpa [run] using h.symm
  | look k ih => exact ih _ h hlen
  | count k ih => exact ih _ h hlen
  | text i k ih => exact ih _ h hlen
  | take e k ih =>
    simp only [run] at h
    split at h
    · obtain ⟨new, -, herr⟩ := takes_of_run (k _) _
      have := congrArg List.length (herr s' h).1
      simp only [List.length_append, List.length_cons] at this
      omega
    · simpa using h.symm

end Reading

/-! ## Where a scan stops -/

section Offsets

variable {g v u : List Char} {s s' : Scan}

theorem Next.rest_of_unknown {e : Expectation} {x g r : List Char}
    (h : Next.of e x = .unknown g r) : r.length ≤ x.length := by
  have hf := Next.found e x
  rw [h] at hf
  clear h
  generalize hn : Next.unknown g r = n at hf
  induction hf generalizing g with
  | ended | token => simp at hn
  | unknown hs hnone =>
    obtain ⟨-, rfl⟩ := Next.unknown.inj hn
    exact Nat.le_refl _
  | @skip s l k n hl hskip rest ih =>
    cases n with
    | ended | token => simp [Next.prepend] at hn
    | unknown g' r' =>
      obtain ⟨-, rfl⟩ := Next.unknown.inj hn
      exact Nat.le_trans (ih rfl) (by simp)

theorem Scan.offset_le (hrest : s.rest.length ≤ v.length) : s.offset v ≤ v.length := by
  rw [offset]
  split
  · rw [Text.trimEnd, List.length_reverse]
    exact Nat.le_trans (List.dropWhile_suffix _).length_le (by simp)
  · omega
  · omega

/-- Layout around a text moves the place where a scan of it stops by what stands in front. -/
theorem Scan.offset_padded {g' : List Char} (hnext : s'.next = (s.next.extend u).prepend g')
    (hrest : s.rest.length ≤ v.length) (hu : ∀ c ∈ u, Text.isBlank c = true)
    (hend : s.next.kind = .eof → ∃ c ∈ v, Text.isBlank c = false) :
    s'.offset (g ++ (v ++ u)) = g.length + s.offset v := by
  rw [offset, offset, hnext]
  cases hn : s.next with
  | ended w =>
    simp only [Next.extend, Next.prepend]
    rw [Text.trimEnd_append hu (hend (by rw [hn]; rfl)), List.length_append]
  | token t r =>
    have := congrArg List.length (Next.of_eq_token hn).1
    simp only [Next.extend, Next.prepend, List.length_append] at this ⊢
    omega
  | unknown w r =>
    have := Next.rest_of_unknown hn
    simp only [Next.extend, Next.prepend, List.length_append]
    omega

end Offsets

/-! ## Lines and columns -/

/-- Only the line feeds of a text matter for its lines and columns. -/
theorem Position.of_congr {text text' : List Char}
    (h : text.map (· == '\n') = text'.map (· == '\n')) (o : Nat) :
    Position.of text o = Position.of text' o := by
  have hline : ∀ l : List Char, l.count '\n' = (l.map (· == '\n')).count true := by
    intro l
    rw [List.count, List.count, List.countP_map]
    congr 1
    funext c
    simp
  have hcolumn : ∀ l : List Char, (l.reverse.takeWhile (· ≠ '\n')).length =
      ((l.map (· == '\n')).reverse.takeWhile (!·)).length := by
    intro l
    rw [← List.map_reverse, List.takeWhile_map, List.length_map]
    congr 2
    funext c
    by_cases hc : c = '\n' <;> simp [hc]
  have htake : (text.take o).map (· == '\n') = (text'.take o).map (· == '\n') := by
    rw [List.map_take, h, List.map_take]
  simp only [Position.of]
  rw [hline, hline, hcolumn, hcolumn, htake]

theorem Text.isBlank_of_mem_blank {c : Char} {s : List Char} (h : c ∈ blank s) :
    isBlank c = true := by
  obtain ⟨d, -, rfl⟩ := List.mem_map.mp h
  split <;> rfl

theorem Text.map_blank (s : List Char) : (blank s).map (· == '\n') = s.map (· == '\n') := by
  rw [blank, List.map_map]
  refine List.map_congr_left fun c _ => ?_
  by_cases hc : c = '\n' <;> simp [hc]

namespace Source.Holds

variable {s : Source} {p v q : List Char}

theorem length_chars (hs : s.Holds p v q) : s.chars.length = s.text.toList.length := by
  rw [hs.chars, hs.text]
  simp

/-- Blanking keeps lines and columns. -/
theorem position_of (hs : s.Holds p v q) (o : Nat) :
    Position.of s.chars o = Position.of s.text.toList o := by
  refine Position.of_congr ?_ o
  rw [hs.chars, hs.text]
  simp [Text.map_blank]

theorem range_eq (hs : s.Holds p v q) (file : String) (start stop : Nat) :
    Location.range file s.chars start stop = Location.range file s.text.toList start stop := by
  rw [Location.range, Location.range, hs.position_of, hs.position_of]

theorem point_eq (hs : s.Holds p v q) (file : String) (offset : Int) :
    Location.point file s.chars offset = Location.point file s.text.toList offset := by
  rw [Location.point, Location.point, hs.position_of, hs.length_chars]

end Source.Holds

theorem Location.start_point {file : String} {text : List Char} {n : Nat} (h : n ≤ text.length) :
    (point file text n).start = n := by
  rw [point, Int.toNat_natCast, Nat.min_eq_left h]

/-! ## Moved results -/

/-- A location in a piece of a text, as one in the text itself. The piece starts at offset `a`. -/
def Location.moved (file : String) (text : List Char) (a : Int) (l : Location) : Location :=
  range file text (a + l.start).toNat (a + l.stop).toNat

/-- Two faults in lists of arguments: one in a region of a text, one in the text of the region
alone. They have the same cause, at the same character. -/
structure Fault.Moved (file : String) (text : List Char) (region : Int × Int) (f f' : Fault) :
    Prop where
  cause : f.cause = f'.cause
  category : f.cause.category = .directive
  place : ∃ l l', f.location = some l ∧ f'.location = some l' ∧ l.start = region.1 + l'.start ∧
    region.1 ≤ l.start ∧ l.start ≤ region.2 ∧ l = .point file text l.start

section Moved

variable {α β : Type} {s : Source} {p v q : List Char} {goal : Goal} {start : Expectation}
  {reading : Nat → Reading α} {place : (Extent → Location) → α → β}

/-- A text that cannot be read to its end is not blank. -/
theorem exists_visible_of_error {scan : Scan}
    (hempty : ∀ n (s : Scan), s.next.kind = .eof → ∃ a, (reading (n + 1)).run s = .ok (a, s))
    (h : Reading.parse reading start v = .error scan) (hend : scan.next.kind = .eof) :
    ∃ c ∈ v, Text.isBlank c = false := by
  have hrun : (Reading.whole reading (depth v)).run (.start start v) = .error scan := by
    rw [Reading.parse_eq] at h
    split at h
    · simp at h
    · simp_all
  obtain ⟨new, -, hnew⟩ := Reading.takes_of_run (Reading.whole reading (depth v)) (.start start v)
  obtain ⟨htaken, hrest⟩ := hnew scan hrun
  have hvisible :=
    (Reading.visible_of_run (Reading.whole reading (depth v)) (by simp [Scan.start])).2
    scan hrun
  cases hts : scan.taken with
  | cons t ts =>
    obtain ⟨c, hc, hblank⟩ := hvisible t (by simp [hts])
    have ht : t ∈ new := by
      have : t ∈ new.reverse ++ [] := by
        rw [← show scan.taken = new.reverse ++ [] from htaken, hts]
        exact List.mem_cons_self
      simpa using this
    have hv : v = Token.spelled new ++ scan.rest := hrest
    refine ⟨c, ?_, hblank⟩
    rw [hv, Token.spelled, List.mem_append, List.mem_flatMap]
    exact .inl ⟨t, ht, by simp [hc]⟩
  | nil =>
    -- Nothing has been taken, so nothing but gaps stand in the text, and it is an empty list.
    obtain rfl := Reading.eq_of_error hrun (by simp [hts])
    obtain ⟨a, ha⟩ := hempty (16 * v.length + 15) _ hend
    have hdepth : depth v = 16 * v.length + 15 + 1 := by
      rw [depth]
      omega
    rw [Reading.whole, hdepth, Reading.run_bind_of_ok ha,
      Reading.run_bind_of_ok (Reading.run_finish_of_eof hend)] at hrun
    simp at hrun

/-- What is left of a text that cannot be read is no longer than the text. -/
theorem length_rest_le_of_error {scan : Scan} (h : Reading.parse reading start v = .error scan) :
    scan.rest.length ≤ v.length := by
  rw [Reading.parse_eq] at h
  split at h
  · simp at h
  · rename_i hrun
    obtain rfl : _ = scan := Except.error.inj h
    exact Reading.rest_le_of_error hrun

/-- The same complaint at an offset in a list of arguments, and where the text has that. -/
theorem Source.Holds.moved_complaint (hs : s.Holds p v q) (hgoal : goal.isList = true)
    (complaint : Complaint) {n : Nat} (hn : n ≤ v.length) :
    Fault.Moved s.file s.text.toList (p.length, (p ++ v).length)
      ⟨.unreadable goal complaint, some (.point s.file s.text.toList (p.length + n : Nat))⟩
      ⟨.unreadable goal complaint, some (.point s.file v n)⟩ := by
  have hstart : (Location.point s.file s.text.toList (p.length + n : Nat)).start =
      (p.length + n : Nat) := by
    refine Location.start_point ?_
    simp only [hs.text, List.length_append]
    omega
  refine ⟨rfl, by simp [Cause.category, hgoal], _, _, rfl, rfl, ?_, ?_, ?_, ?_⟩
  · rw [hstart, Location.start_point hn]
    exact Int.natCast_add _ _
  · rw [hstart]
    exact Int.ofNat_le.mpr (Nat.le_add_right _ _)
  · rw [hstart, List.length_append]
    exact Int.ofNat_le.mpr (Nat.add_le_add_left hn _)
  · rw [hstart]

/-- A list of arguments that is read in place and on its own. -/
theorem Source.parse_moved (hs : s.Holds p v q) (hv : Tiled v)
    (h : ∀ n, Grammar.Steady (Offset 0 0) 5 reading n)
    (hempty : ∀ n (s : Scan), s.next.kind = .eof → ∃ a, (reading (n + 1)).run s = .ok (a, s))
    (hgoal : goal.isList = true) {R : β → β → Prop}
    (hplace : ∀ r, Reading.parse reading start v = .ok r →
      R (place (Extent.location s.file s.chars (Token.spans p.length r.tokens).toArray) r.value)
        (place (Extent.located s.file v r.tokens) r.value)) :
    Agree (Fault.Moved s.file s.text.toList (p.length, (p ++ v).length)) R
      (s.parse goal start reading place)
      (Source.parse ⟨s.file, String.ofList v, none⟩ goal start reading place) := by
  have hchars : Source.chars ⟨s.file, String.ofList v, none⟩ = v := by simp [chars]
  cases hr : Reading.parse reading start v with
  | ok r =>
    have halone : Source.parse ⟨s.file, String.ofList v, none⟩ goal start reading place =
        .ok (place (Extent.located s.file v r.tokens) r.value) := by
      simp only [parse, parseM_plain, hchars, hr]
    rw [parse_eq_ok hs hv h hr, halone]
    exact .ok (hplace r hr)
  | error scan =>
    have halone : Source.parse ⟨s.file, String.ofList v, none⟩ goal start reading place =
        .error ⟨.unreadable goal scan.complaint, some (.point s.file v (scan.offset v))⟩ := by
      simp only [parse, parseM_plain, hchars, hr]
    -- Both readings stop at the same token, so that the offsets differ by what stands in front.
    obtain ⟨scan', hscan', hpaced⟩ := parse_paced goal place hs hv h hr
    have hrest := length_rest_le_of_error hr
    have hlayout : ∀ {w : List Char}, ∀ c ∈ Text.blank w, isLayout c = true :=
      fun _ => Text.isLayout_of_mem_blank
    obtain ⟨g', hnext⟩ := next_of_paced hlayout hlayout hpaced
    have hoffset : scan'.offset s.chars = p.length + scan.offset v := by
      rw [hs.chars, Scan.offset_padded hnext hrest (fun _ => Text.isBlank_of_mem_blank)
        (exists_visible_of_error hempty hr), Text.length_blank]
    rw [hscan', halone, hoffset, hs.point_eq]
    exact .error (hs.moved_complaint hgoal _ (Scan.offset_le hrest))

end Moved

/-! ## Lists that are found -/

/-- Nothing is an empty list. -/
theorem openList_of_eof {α : Type} {starts : Terminal → Bool} (hstarts : starts .eof = false)
    (after : Expectation) (element : Reading α) (n : Nat) {s : Scan} (hs : s.next.kind = .eof) :
    (Reading.openList starts after element (n + 1)).run s = .ok ([], s) := by
  rw [Reading.openList, Reading.run_peek_bind, hs, hstarts]
  rfl

theorem openList_placed {starts : Terminal → Bool} {after : Expectation} {k : Nat} (n : Nat)
    {s s' : Scan} {ms : List (Meta Extent)}
    (h : (Reading.openList starts after (Grammar.metaItem k) n).run s = .ok (ms, s')) :
    ∀ m ∈ ms, m.Placed s'.taken.reverse := by
  refine Reading.openList_induction (P := fun _ ms => ∀ m ∈ ms, m.Placed s'.taken.reverse)
    (fun _ => by simp) ?_ ?_ h
  · intro s m hm _
    simpa using (Grammar.metaItem_placed hm).2
  · intro s s₁ t r m ms n hm hnext _ hms ih
    have hlater := (Scan.Takes.token hnext after).later.trans (Reading.later_of_run hms)
    simp only [List.mem_cons, forall_eq_or_imp]
    exact ⟨hlater.placed (P := fun ts => m.Placed ts) (fun _ us h => h.append us)
      (Grammar.metaItem_placed hm).2, ih⟩

namespace Source

/-- The meta items that are found when a text is read as a block, as an item or as a list of meta
items, the last also in any region of it. -/
inductive Finds (file text : String) (m : Meta Location) : Prop where
  | block {b : ImplBlock Location} {a : Attribute Location}
      (h : Source.implBlock ⟨file, text, none⟩ = .ok b) (ha : a ∈ b.attributes)
      (hm : a.content = some m)
  | item {i : Item Location} {a : Attribute Location}
      (h : Source.item ⟨file, text, none⟩ = .ok i) (ha : a ∈ i.attrs) (hm : a.content = some m)
  | list {ms : List (Meta Location)} (region : Option (Int × Int))
      (h : Source.metas ⟨file, text, region⟩ = .ok ms) (hm : m ∈ ms)

variable {file text : String} {m : Meta Location}

/-- A meta item that is found was read from visible tokens, in which it is placed. -/
theorem Finds.exists_placed (h : Finds file text m) : ∃ region ts rest m₀,
    Source.chars ⟨file, text, region⟩ = Token.spelled ts ++ rest ∧ (∀ t ∈ ts, t.Visible) ∧
    Meta.Placed ts m₀ ∧
    m = m₀.map (Extent.located file (Source.chars ⟨file, text, region⟩) ts) := by
  have hvisible : ∀ {α : Type} {r : Reading α} {e : Expectation} {v : List Char}
    {a : α} {s' : Scan},
      r.run (.start e v) = .ok (a, s') → ∀ t ∈ s'.taken.reverse, t.Visible := by
    intro α r e v a s' hrun t ht
    exact (Reading.visible_of_run r (by simp [Scan.start])).1 a s' hrun t (by simpa using ht)
  -- The content of an attribute is placed where that is.
  have hcontent : ∀ {ts : List Token} {a₀ : Attribute Extent} {f : Extent → Location},
      a₀.Placed ts → (a₀.map f).content = some m → ∃ m₀ : Meta Extent, m₀.Placed ts ∧
      m = m₀.map f := by
    intro ts a₀ f ha₀ hm
    obtain ⟨m₀, hm₀, rfl⟩ := Option.map_eq_some_iff.mp hm
    exact ⟨m₀, ha₀.content m₀ hm₀, rfl⟩
  cases h with
  | block h ha hm =>
    obtain ⟨b₀, s', hrun, htext, rfl⟩ := exists_run h
    rw [ImplBlock.attributes_map] at ha
    obtain ⟨a₀, ha₀, rfl⟩ := List.mem_map.mp ha
    obtain ⟨m₀, hm₀, rfl⟩ := hcontent ((Grammar.implBlock_placed hrun).attributes a₀ ha₀) hm
    exact ⟨none, _, _, m₀, htext, hvisible hrun, hm₀, rfl⟩
  | item h ha hm =>
    obtain ⟨i₀, s', hrun, htext, rfl⟩ := exists_run h
    have hvis := hvisible hrun
    obtain ⟨attrs, s₁, hattrs, hrun⟩ := Reading.run_bind_eq_ok.mp hrun
    obtain rfl : i₀.attrs = attrs := (Grammar.item_attrs attrs _).of_run hrun
    rw [Item.attrs_map] at ha
    obtain ⟨a₀, ha₀, rfl⟩ := List.mem_map.mp ha
    have hplaced := (Grammar.attributes_placed _ hattrs).placed_later
      (Reading.later_of_run hrun) a₀ ha₀
    obtain ⟨m₀, hm₀, rfl⟩ := hcontent hplaced hm
    exact ⟨none, _, _, m₀, htext, hvis, hm₀, rfl⟩
  | list region h hm =>
    obtain ⟨ms₀, s', hrun, htext, rfl⟩ := exists_run h
    obtain ⟨m₀, hm₀, rfl⟩ := List.mem_map.mp hm
    exact ⟨region, _, _, m₀, htext, hvisible hrun, openList_placed _ hrun m₀ hm₀, rfl⟩

end Source

/-! ## Regions of regions -/

/-- What stands between two visible characters of a masked text stands there in the text. -/
theorem Text.eq_of_mask {text p w q : List Char} {a b : Int} {c d : Char}
    (hc : isBlank c = false) (hd : isBlank d = false)
    (h : mask text a b = p ++ [c] ++ w ++ (d :: q)) :
    ∃ p' q', p'.length = p.length ∧ text = p' ++ [c] ++ w ++ (d :: q') := by
  have hne : ∀ {e : Char} {l : List Char}, isBlank e = false → e ∉ blank l := by
    intro e l he hmem
    rw [isBlank_of_mem_blank hmem] at he
    simp at he
  rw [mask] at h
  -- The first character is not one of the blanks in front.
  obtain ⟨v, rfl, hslice⟩ : ∃ v, p = blank (text.take (bound text.length a)) ++ v ∧
      slice text a b ++ blank (text.drop (bound text.length b)) = v ++ [c] ++ w ++ [d] ++ q := by
    have h' : blank (text.take (bound text.length a)) ++
        (slice text a b ++ blank (text.drop (bound text.length b))) =
          p ++ ([c] ++ w ++ [d] ++ q) := by
      simpa using h
    rcases List.append_eq_append_iff.mp h' with ⟨v, rfl, h'⟩ | ⟨x, hx, h'⟩
    · exact ⟨v, rfl, by simpa using h'⟩
    · cases x with
      | nil => exact ⟨[], by simpa using hx.symm, by simpa using h'.symm⟩
      | cons e x =>
        obtain rfl : c = e := by simpa using congrArg List.head? h'
        exact absurd (by simp [hx]) (hne (l := text.take (bound text.length a)) hc)
  -- The second one is not one of the blanks behind.
  obtain ⟨v', hv'⟩ : ∃ v', slice text a b = v ++ [c] ++ w ++ [d] ++ v' := by
    rcases List.append_eq_append_iff.mp hslice with ⟨x, hx, h'⟩ | ⟨v', hv', -⟩
    · cases hlast : x.getLast? with
      | none =>
        obtain rfl := List.getLast?_eq_none_iff.mp hlast
        exact ⟨[], by simpa using hx.symm⟩
      | some e =>
        obtain rfl : d = e := by
          have := congrArg List.getLast? hx
          rw [List.getLast?_concat, List.getLast?_append, hlast] at this
          simpa using this
        have hmem : d ∈ blank (text.drop (bound text.length b)) := by
          rw [h']
          exact List.mem_append_left _ (List.mem_of_getLast? hlast)
        exact absurd hmem (hne hd)
    · exact ⟨v', hv'⟩
  obtain ⟨rest, hrest⟩ : slice text a b <+: text.drop (bound text.length a) := by
    rw [slice, List.drop_take]
    exact List.take_prefix _ _
  refine ⟨text.take (bound text.length a) ++ v, v' ++ rest, by simp, ?_⟩
  conv_lhs => rw [← List.take_append_drop (bound text.length a) text, ← hrest, hv']
  simp

namespace Source

variable {file text : String} {m : Meta Location} {args : String} {group : Location}

/-- A list of arguments that is found stands in the text where it is said to, and the scanner has
covered it with lexemes. -/
theorem Finds.exists_split (h : Finds file text m) (hform : m.form = .list args group) :
    ∃ p q, text.toList = p ++ args.toList ++ q ∧ Tiled args.toList ∧
      Directive.interior group = ((p.length : Int), ((p ++ args.toList).length : Int)) := by
  obtain ⟨region, ts, rest, m₀, hchars, hvisible, hm₀, rfl⟩ := h.exists_placed
  obtain ⟨g, hform₀, rfl⟩ := Meta.exists_of_form_map hform
  have hencloses : g.Encloses ts args.toList := by
    have := hm₀.sound
    rwa [hform₀] at this
  obtain ⟨p, o, ho, c, hc, q, hlo, hlc, hts, hinterior⟩ := hencloses.interior_eq file
    (Source.chars ⟨file, text, region⟩) 0
  -- The brackets are single characters that are not blank.
  have hsingle : ∀ t ∈ ts, t.text.length = 1 → ∃ e, t.text = [e] ∧ Text.isBlank e = false := by
    intro t ht hlen
    obtain ⟨e, he⟩ := List.length_eq_one_iff.mp hlen
    obtain ⟨e', he', hblank⟩ := hvisible t ht
    rw [he, List.mem_singleton] at he'
    exact ⟨e, he, he' ▸ hblank⟩
  obtain ⟨eo, heo, hblank⟩ := hsingle o ho hlo
  obtain ⟨ec, hec, hblank'⟩ := hsingle c hc hlc
  rw [heo, hec] at hts
  rw [heo] at hinterior
  have hsplit : Source.chars ⟨file, text, region⟩ = p ++ [eo] ++ args.toList ++
      (ec :: (q ++ rest)) := by
    rw [hchars, hts]
    simp
  -- In a region, everything outside of it is blank, so both brackets are inside.
  obtain ⟨p', q', hlen, htext⟩ : ∃ p' q', p'.length = p.length ∧
      text.toList = p' ++ [eo] ++ args.toList ++ (ec :: q') := by
    cases region with
    | none => exact ⟨p, q ++ rest, rfl, hsplit⟩
    | some r => exact Text.eq_of_mask hblank hblank' hsplit
  refine ⟨p' ++ [eo], ec :: q', htext, hencloses.tiled, ?_⟩
  rw [hinterior]
  simp [hlen]

/-- A meta item in place and on its own. -/
theorem map_moved {s : Source} {p v q : List Char} (hs : s.Holds p v q) {ts : List Token}
    {m : Meta Extent} (hm : m.Placed ts) :
    m.map (Extent.location s.file s.chars (Token.spans p.length ts).toArray) =
      (m.map (Extent.located s.file v ts)).map (.moved s.file s.text.toList p.length) := by
  have hplace : ∀ x : Extent, x.Proper ts →
      x.location s.file s.chars (Token.spans p.length ts).toArray =
        (x.located s.file v ts).moved s.file s.text.toList p.length := by
    intro x hx
    rw [Extent.location_eq hx, Extent.located_eq hx, hs.range_eq]
    rfl
  rcases m with ⟨path, form, place⟩
  have hform : form.map (Extent.location s.file s.chars (Token.spans p.length ts).toArray) =
      (form.map (Extent.located s.file v ts)).map (.moved s.file s.text.toList p.length) := by
    cases form with
    | word | value => rfl
    | list args g =>
      obtain ⟨-, hne, hlast⟩ := (hm.group args g rfl).bounds List.mem_cons_self
      have hg : g.Proper ts := ⟨hne, Nat.le_trans hlast hm.place.within⟩
      simp only [MetaForm.map, hplace g hg]
  simp only [Meta.map, hform, hplace place hm.place]

/-- The text that a region of a source covers. -/
def cutout (file text : String) (region : Int × Int) : Source :=
  ⟨file, String.ofList (Text.slice text.toList region.1 region.2), none⟩

/-- A list of arguments that is found in a text can be read where it stands or cut
out of the text. -/
theorem region_agree_cutout (file text : String) (m : Meta Location) (args : String)
    (group : Location) (h : Finds file text m) (hform : m.form = .list args group) :
    Agree (Fault.Moved file text.toList (Directive.interior group))
        (fun ms ms' => ms = ms'.map
          (Meta.map (Location.moved file text.toList (Directive.interior group).1)))
        (metas ⟨file, text, some (Directive.interior group)⟩)
        (metas (cutout file text (Directive.interior group))) ∧
      Agree (Fault.Moved file text.toList (Directive.interior group)) Eq
        (names ⟨file, text, some (Directive.interior group)⟩)
        (names (cutout file text (Directive.interior group))) ∧
      Agree (Fault.Moved file text.toList (Directive.interior group)) Eq
        (predicates ⟨file, text, some (Directive.interior group)⟩)
        (predicates (cutout file text (Directive.interior group))) := by
  obtain ⟨p, q, htext, htiled, hinterior⟩ := h.exists_split hform
  have hholds : Holds ⟨file, text, some (Directive.interior group)⟩ p args.toList q := by
    rw [hinterior]
    exact holds_region (s := ⟨file, text, none⟩) htext
  have hcut : cutout file text (Directive.interior group) =
      ⟨file, String.ofList args.toList, none⟩ := by
    rw [cutout, hinterior, htext, Text.slice_append]
  rw [hcut, hinterior] at *
  refine ⟨?_, ?_, ?_⟩
  · refine parse_moved hholds htiled metas_steady (fun n s hs => ⟨[], ?_⟩) rfl fun r hr => ?_
    · exact openList_of_eof rfl _ _ n hs
    · obtain ⟨s', hrun, htokens, -⟩ := Reading.exists_run hr
      rw [List.map_map]
      refine List.map_congr_left fun m hm => map_moved hholds ?_
      rw [htokens]
      exact openList_placed _ hrun m hm
  · refine parse_moved hholds htiled names_steady (fun n s hs => ⟨[], ?_⟩) rfl fun r hr => rfl
    exact openList_of_eof rfl _ _ n hs
  · refine parse_moved hholds htiled (Grammar.predicates_steady rfl) (fun n s hs => ⟨[], ?_⟩) rfl
      fun r hr => rfl
    exact openList_of_eof rfl _ _ n hs

/-- The arguments of an attribute, which are names but no predicates. -/
theorem region_agree_cutout_names :
    ∃ m args group, Finds "a.rs" "#[m(a, b)] impl X \x7b\x7d" m ∧ m.form = .list args group ∧
      Agree (Fault.Moved "a.rs" "#[m(a, b)] impl X \x7b\x7d".toList (Directive.interior group)) Eq
        (predicates ⟨"a.rs", "#[m(a, b)] impl X \x7b\x7d", some (Directive.interior group)⟩)
        (predicates (cutout "a.rs" "#[m(a, b)] impl X \x7b\x7d" (Directive.interior group))) := by
  have hlist : ((implBlock ⟨"a.rs", "#[m(a, b)] impl X \x7b\x7d", none⟩).toOption.bind fun b =>
      (b.attrs.head?.bind Attribute.content).map fun m =>
        m.form.map (fun _ => ()) == .list "a, b" ()) = some true := by
    decide +kernel
  obtain ⟨b, hb, hlist⟩ := Option.bind_eq_some_iff.mp hlist
  obtain ⟨m, hm, hlist⟩ := Option.map_eq_some_iff.mp hlist
  obtain ⟨a, ha, hm⟩ := Option.bind_eq_some_iff.mp hm
  have hblock : implBlock ⟨"a.rs", "#[m(a, b)] impl X \x7b\x7d", none⟩ = .ok b := by
    cases h : implBlock ⟨"a.rs", "#[m(a, b)] impl X \x7b\x7d", none⟩ with
    | error f => simp [h, Except.toOption] at hb
    | ok b' => simpa [h, Except.toOption] using hb
  have hfinds : Finds "a.rs" "#[m(a, b)] impl X \x7b\x7d" m :=
    .block hblock (by simp [ImplBlock.attributes, List.mem_of_head? ha]) hm
  cases hform : m.form with
  | word | value =>
    rw [hform] at hlist
    exact absurd hlist Bool.false_ne_true
  | list args group =>
    exact ⟨m, args, group, hfinds, hform,
      (region_agree_cutout "a.rs" _ m args group hfinds hform).2.2⟩

end Source
end ShadowImpl
