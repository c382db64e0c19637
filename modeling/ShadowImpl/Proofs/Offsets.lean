import ShadowImpl.Proofs.Relocation
import ShadowImpl.Proofs.Spans

/-!
# Places behind other text

A text may stand behind lines that are put in front of it. Its places then move by these lines:
offsets by their length and lines by their number, while columns stay.
-/

namespace ShadowImpl

variable {front text z : List Char}

/-! ## Lines and columns -/

/-- A place behind the lines `front`. -/
def Location.behind (front : List Char) (l : Location) : Location :=
  { l with
    line := l.line + front.count '\n'
    start := l.start + front.length
    stop := l.stop + front.length
    endLine := l.endLine + front.count '\n' }

/-- Behind whole lines a position is moved down by their number, and its column stays. -/
theorem Position.of_behind (hfront : front.getLast? = some '\n') {o : Nat} (ho : o ≤ text.length)
    (z : List Char) : Position.of (front ++ (text ++ z)) (front.length + o) =
      ⟨(Position.of text o).line + front.count '\n', (Position.of text o).column⟩ := by
  have htake : (front ++ (text ++ z)).take (front.length + o) = front ++ text.take o := by
    rw [List.take_length_add_append, List.take_append_of_le_length ho]
  -- Going back from the offset, the line ends in `text` or right behind `front`.
  have hcolumn : ((front ++ text.take o).reverse.takeWhile (· ≠ '\n')).length =
      ((text.take o).reverse.takeWhile (· ≠ '\n')).length := by
    obtain ⟨init, rfl⟩ := List.getLast?_eq_some_iff.mp hfront
    rw [List.reverse_append, List.takeWhile_append]
    split
    · rename_i hall
      rw [hall]
      simp
    · rfl
  simp only [Position.of, htake, hcolumn, List.count_append]
  rw [Nat.add_comm (front.count '\n'), Nat.add_right_comm]

/-- So is the range between two places. -/
theorem Location.range_behind (hfront : front.getLast? = some '\n') (file : String)
    {start stop : Nat} (hstart : start ≤ text.length) (hstop : stop ≤ text.length) (z : List Char) :
    range file (front ++ (text ++ z)) (front.length + start) (front.length + stop) =
      (range file text start stop).behind front := by
  simp only [range, behind, Position.of_behind hfront hstart, Position.of_behind hfront hstop]
  simp only [Int.natCast_add, Nat.add_comm front.length]

/-! ## Extents -/

/-- The spans of tokens start where they are told to. -/
theorem Token.spans_add (c b : Nat) (ts : List Token) :
    spans (c + b) ts = (spans b ts).map fun p => (c + p.1, c + p.2) := by
  induction ts generalizing b with
  | nil => rfl
  | cons t ts ih => simp only [spans, List.map_cons, Nat.add_assoc, ih]

section

variable {us us' base more : List Token} {x y : Extent}

/-- Where the tokens of a text are found again behind others, a place is found behind the lines that
stand in front. Between these and the first token of the text there may be another gap. -/
theorem Extent.located_behind (hfront : front.getLast? = some '\n') (hsame : Token.SameRun us us')
    (hlen : (Token.spelled base.reverse).length + (Token.spelled us'.reverse).length =
      front.length + (Token.spelled us.reverse).length)
    {rest : List Char} (htext : text = Token.spelled us.reverse ++ rest)
    (hx : x.Proper us.reverse) (hxy : x.Related (Offset 0 base.length) y) (file : String) :
    y.located file (front ++ (text ++ z)) (base.reverse ++ (us'.reverse ++ more)) =
      (x.located file text us.reverse).behind front := by
  obtain ⟨⟨first, hfirst, hfirst'⟩, ⟨last, hlast, hlast'⟩⟩ := hxy
  have hnonempty := hx.nonempty
  have hwithin := hx.within
  have hspan : ∀ i < us.reverse.length,
      (Token.spans 0 (base.reverse ++ (us'.reverse ++ more)))[base.length + i]? =
        (Token.spans 0 us.reverse)[i]?.map fun p => (front.length + p.1, front.length + p.2) := by
    intro i hi
    have hi' : i < us'.reverse.length := by
      rwa [List.length_reverse, ← hsame.length_eq, ← List.length_reverse]
    rw [Token.spans_append, List.getElem?_append_right (by simp), Token.length_spans,
      List.length_reverse, Nat.add_sub_cancel_left, Token.spans_append,
      List.getElem?_append_left (by simpa using hi'), Nat.zero_add,
        Token.spans_of_sameRun hsame hlen,
      ← Nat.add_zero front.length, Token.spans_add, List.getElem?_map, Nat.add_zero]
  obtain ⟨p, hp⟩ : ∃ p, (Token.spans 0 us.reverse)[x.first]? = some p :=
    ⟨_, Token.spans_getElem?_of_lt 0 (Nat.lt_of_lt_of_le hnonempty hwithin)⟩
  obtain ⟨q, hq⟩ : ∃ q, (Token.spans 0 us.reverse)[x.last - 1]? = some q :=
    ⟨_, Token.spans_getElem?_of_lt 0 (by omega)⟩
  have hp' := hspan x.first (by omega)
  have hq' := hspan (x.last - 1) (by omega)
  rw [show base.length + x.first = y.first by omega, hp] at hp'
  rw [show base.length + (x.last - 1) = y.last - 1 by omega, hq] at hq'
  have haccurate : (x.located file text us.reverse).Accurate file text :=
    Extent.accurate_located htext hx
  have horder := haccurate.order
  have hstop := haccurate.stop
  simp only [located, location, List.getElem?_toArray, hp, hq, hp', hq', Option.map_some,
    Option.getD_some] at horder hstop ⊢
  exact Location.range_behind hfront file (Int.ofNat_le.mp (Int.le_trans horder hstop))
    (Int.ofNat_le.mp hstop) z

end

/-! ## Trees -/

section

variable {σ : Type} {N : Nat → Nat → Prop} {ts : List Token} {f g : Extent → σ}
  (hfg : ∀ x y, x.Proper ts → x.Related N y → f x = g y)

include hfg

/-- Places that are related by `N` are mapped to the same location; so related meta items become the
same. -/
theorem Meta.Related.map_eq {m m' : Meta Extent} (h : m.Related (Extent.Related N) m')
    (hm : m.Placed ts) : m.map f = m'.map g := by
  obtain ⟨hpath, hform, hplace⟩ := h
  have hmap : m.form.map f = m'.form.map g := by
    cases hf : m.form with
    | word | value =>
      rw [hf] at hform
      cases hf' : m'.form <;> rw [hf'] at hform <;> cases hform
      rfl
    | list args group =>
      rw [hf] at hform
      cases hf' : m'.form <;> rw [hf'] at hform <;> cases hform
      rename_i group' hgroup
      obtain ⟨-, hne, hlast⟩ := (hm.group args group hf).bounds List.mem_cons_self
      have hproper : group.Proper ts := ⟨hne, Nat.le_trans hlast hm.place.within⟩
      rw [MetaForm.map, MetaForm.map, hfg _ _ hproper hgroup]
  rw [Meta.map, Meta.map, hpath, hmap, hfg _ _ hm.place hplace]

theorem Attribute.Related.map_eq {a a' : Attribute Extent} (h : a.Related (Extent.Related N) a')
    (ha : a.Placed ts) : a.map f = a'.map g := by
  obtain ⟨hstyle, hcontent, htext, hplace⟩ := h
  have hmap : a.content.map (Meta.map f) = a'.content.map (Meta.map g) := by
    cases hc : a.content <;> cases hc' : a'.content <;> rw [hc, hc'] at hcontent <;> cases hcontent
    · rfl
    · rename_i hm
      exact congrArg some (Meta.Related.map_eq hfg hm (ha.content _ hc))
  rw [Attribute.map, Attribute.map, hstyle, hmap, htext, hfg _ _ ha.place hplace]

theorem Attribute.map_eq_of_related {as bs : List (Attribute Extent)}
    (h : List.Forall₂ (Attribute.Related (Extent.Related N)) as bs) (has : ∀ a ∈ as, a.Placed ts) :
    as.map (Attribute.map f) = bs.map (Attribute.map g) := by
  induction h with
  | nil => rfl
  | cons ha _ ih =>
    rw [List.forall_mem_cons] at has
    rw [List.map_cons, List.map_cons, Attribute.Related.map_eq hfg ha has.1, ih has.2]

/-- Related items whose places go over to the same ones are the same then. -/
theorem Item.Related.map_eq {i j : Item Extent} (h : i.Related (Extent.Related N) j)
    (hi : i.Placed ts) (has : ∀ a ∈ i.attrs, a.Placed ts) : i.map f = j.map g := by
  have hplace := hi.proper
  cases h with
  | @method m m' h =>
    obtain ⟨hname, hattrs, hhead, hgenerics, hparams, hret, hbody, hat⟩ := h
    rw [Item.map, Item.map, Method.map, Method.map,
      Attribute.map_eq_of_related hfg hattrs has, hname, hhead, hgenerics, hparams, hret, hbody,
      hfg m.place m'.place hplace hat]
  | @verbatim v v' h =>
    obtain ⟨hkind, hattrs, htext, hat⟩ := h
    rw [Item.map, Item.map, VerbatimItem.map, VerbatimItem.map,
      Attribute.map_eq_of_related hfg hattrs has, hkind, htext, hfg v.place v'.place hplace hat]

end

end ShadowImpl
