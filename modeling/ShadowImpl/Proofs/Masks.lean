import ShadowImpl.Proofs.Cutouts

/-!
# Blanked texts

Blanking what lies outside of a region leaves a text of the same shape: its characters stand where
they stood and its lines end where they ended, so that every offset keeps its line and its column.
Of a region in a region it makes no difference whether the outer one was blanked first.
-/

namespace ShadowImpl

variable {text masked inner : List Char} {a b c d : Nat}

namespace Text

/-- In `masked` all of `text` is blank but what stands from `a` up to `b`. -/
structure Masked (text : List Char) (a b : Nat) (masked : List Char) : Prop where
  length : masked.length = text.length
  feeds : ∀ i : Nat, masked[i]? = some '\n' ↔ text[i]? = some '\n'
  inside : ∀ i : Nat, a ≤ i → i < b → masked[i]? = text[i]?
  outside : ∀ (i : Nat) (ch : Char), i < a ∨ b ≤ i → masked[i]? = some ch → ch = ' ' ∨ ch = '\n'

/-! ## What is blanked -/

/-- What a character leaves when it is blanked. -/
def shade (ch : Char) : Char :=
  if ch = '\n' then '\n' else ' '

theorem shade_eq_feed_iff {ch : Char} : shade ch = '\n' ↔ ch = '\n' := by
  rw [shade]
  split <;> simp_all

theorem shade_cases (ch : Char) : shade ch = ' ' ∨ shade ch = '\n' := by
  rw [shade]
  split
  · exact .inr rfl
  · exact .inl rfl

theorem getElem?_blank (s : List Char) (i : Nat) : (blank s)[i]? = s[i]?.map shade :=
  List.getElem?_map ..

theorem bound_le (length : Nat) (i : Int) : bound length i ≤ length := by
  rw [bound]
  split <;> omega

section

variable {start stop : Int} {i : Nat}

theorem length_blank_take (text : List Char) (start : Int) :
    (blank (text.take (bound text.length start))).length = bound text.length start := by
  rw [length_blank, List.length_take, Nat.min_eq_left (bound_le _ _)]

theorem length_slice (text : List Char) (start stop : Int) :
    (slice text start stop).length = bound text.length stop - bound text.length start := by
  rw [slice, List.length_drop, List.length_take, Nat.min_eq_left (bound_le _ _)]

theorem length_mask (h : bound text.length start ≤ bound text.length stop) :
    (mask text start stop).length = text.length := by
  have hstop := bound_le text.length stop
  rw [mask, List.length_append, List.length_append, length_blank_take, length_slice, length_blank,
    List.length_drop]
  omega

theorem getElem?_mask_inside (hstart : bound text.length start ≤ i)
    (hstop : i < bound text.length stop) : (mask text start stop)[i]? = text[i]? := by
  have hfront := length_blank_take text start
  have hslice := length_slice text start stop
  -- behind the blanks in front, and in front of those behind
  rw [mask, List.append_assoc, List.getElem?_append_right (by omega), hfront,
    List.getElem?_append_left (by omega), slice, List.getElem?_drop, Nat.add_sub_cancel' hstart,
    List.getElem?_take_of_lt hstop]

theorem getElem?_mask_outside (h : bound text.length start ≤ bound text.length stop)
    (hi : i < bound text.length start ∨ bound text.length stop ≤ i) :
    (mask text start stop)[i]? = text[i]?.map shade := by
  have hfront := length_blank_take text start
  have hslice := length_slice text start stop
  rcases hi with hi | hi
  · rw [mask, List.append_assoc, List.getElem?_append_left (by omega), getElem?_blank,
      List.getElem?_take_of_lt hi]
  · -- what is blank in front and the region together reach up to where the region stops
    have hboth : (blank (text.take (bound text.length start)) ++ slice text start stop).length =
        bound text.length stop := by
      rw [List.length_append]
      omega
    rw [mask, List.getElem?_append_right (by omega), hboth, getElem?_blank, List.getElem?_drop,
      Nat.add_sub_cancel' hi]

/-- Bounds that are not crossed show what lies between them and nothing else. -/
theorem masked_mask (h : bound text.length start ≤ bound text.length stop) :
    Masked text (bound text.length start) (bound text.length stop) (mask text start stop) := by
  refine ⟨length_mask h, ?_, fun i => getElem?_mask_inside, ?_⟩
  · intro i
    by_cases hi : bound text.length start ≤ i ∧ i < bound text.length stop
    · rw [getElem?_mask_inside hi.1 hi.2]
    · rw [getElem?_mask_outside h (by omega), Option.map_eq_some_iff]
      simp only [shade_eq_feed_iff, exists_eq_right]
  · intro i ch hi hch
    rw [getElem?_mask_outside h hi, Option.map_eq_some_iff] at hch
    obtain ⟨ch, -, rfl⟩ := hch
    exact shade_cases ch

theorem masked_mask_of_le (hab : a ≤ b) (hb : b ≤ text.length) :
    Masked text a b (mask text a b) := by
  have hstart : bound text.length a = a := bound_of_le (hab.trans hb)
  have hstop : bound text.length b = b := bound_of_le hb
  have hmask := masked_mask (hstart.trans_le (hab.trans_eq hstop.symm))
  rwa [hstart, hstop] at hmask

end

/-! ## Texts of one shape -/

namespace Masked

/-- At an offset both texts are over, or both have a character, and a line feed only together. -/
theorem at_offset (h : Masked text a b masked) (i : Nat) :
    (masked[i]? = none ∧ text[i]? = none) ∨
      ∃ ch' ch, masked[i]? = some ch' ∧ text[i]? = some ch ∧ (ch' = '\n' ↔ ch = '\n') := by
  have hfeeds := h.feeds i
  by_cases hi : i < text.length
  · have hi' : i < masked.length := h.length.symm ▸ hi
    rw [List.getElem?_eq_getElem hi, List.getElem?_eq_getElem hi', Option.some_inj,
      Option.some_inj] at hfeeds
    exact .inr ⟨_, _, List.getElem?_eq_getElem hi', List.getElem?_eq_getElem hi, hfeeds⟩
  · have hi' : ¬ i < masked.length := h.length.symm ▸ hi
    exact .inl ⟨List.getElem?_eq_none (Nat.le_of_not_lt hi'),
      List.getElem?_eq_none (Nat.le_of_not_lt hi)⟩

/-- Outside of the region there is no choice. -/
theorem shaded (h : Masked text a b masked) {i : Nat} (hi : i < a ∨ b ≤ i) :
    masked[i]? = text[i]?.map shade := by
  rcases h.at_offset i with ⟨hmasked, htext⟩ | ⟨ch', ch, hmasked, htext, hfeed⟩
  · rw [hmasked, htext, Option.map_none]
  · rw [hmasked, htext, Option.map_some, shade]
    split
    · rw [hfeed.mpr ‹ch = '\n'›]
    · have hspace := (h.outside i ch' hi hmasked).resolve_right fun h => ‹ch ≠ '\n'› (hfeed.mp h)
      rw [hspace]

/-- A text can be masked in one way only. -/
theorem unique (h : Masked text a b masked) (h' : Masked text a b inner) : masked = inner := by
  apply List.ext_getElem?
  intro i
  by_cases hi : a ≤ i ∧ i < b
  · rw [h.inside i hi.1 hi.2, h'.inside i hi.1 hi.2]
  · rw [h.shaded (by omega), h'.shaded (by omega)]

/-- Masking a masked text again, for a region within the first one. -/
theorem trans (h : Masked text a b masked) (h' : Masked masked c d inner)
    (hac : a ≤ c) (hdb : d ≤ b) : Masked text c d inner where
  length := h'.length.trans h.length
  feeds i := (h'.feeds i).trans (h.feeds i)
  inside i hc hd := (h'.inside i hc hd).trans (h.inside i (hac.trans hc) (hd.trans_le hdb))
  outside := h'.outside

theorem position_of (h : Masked text a b masked) (o : Nat) :
    Position.of masked o = Position.of text o := by
  -- a position depends on the line feeds only
  apply Position.of_congr
  apply List.ext_getElem?
  intro i
  rw [List.getElem?_map, List.getElem?_map]
  rcases h.at_offset i with ⟨hmasked, htext⟩ | ⟨ch', ch, hmasked, htext, hfeed⟩
  · rw [hmasked, htext]
  · rw [hmasked, htext, Option.map_some, Option.map_some, Option.some_inj, Bool.eq_iff_iff,
      beq_iff_eq, beq_iff_eq]
    exact hfeed

theorem point_eq (h : Masked text a b masked) (file : String) (o : Int) :
    Location.point file masked o = Location.point file text o := by
  rw [Location.point, Location.point, h.position_of, h.length]

end Masked

/-- Masking keeps the shape of a text: what is shown stands where it stood, every offset has the
location that it had, and masking once more within the region is masking once. -/
theorem mask_keeps_shape (hab : a ≤ b) (hb : b ≤ text.length) :
    Masked text a b (mask text a b) ∧
      (∀ (file : String) (o : Int),
        Location.point file (mask text a b) o = Location.point file text o) ∧
      ∀ c d : Nat, a ≤ c → c ≤ d → d ≤ b → mask (mask text a b) c d = mask text c d := by
  have h := masked_mask_of_le hab hb
  refine ⟨h, h.point_eq, ?_⟩
  intro c d hac hcd hdb
  have hd : d ≤ text.length := hdb.trans hb
  -- both texts are masked for the inner region, and there is one such text
  have hinner := masked_mask_of_le hcd (h.length.symm ▸ hd : d ≤ (mask text a b).length)
  exact (h.trans hinner hac hdb).unique (masked_mask_of_le hcd hd)

/-- The region starts at a line feed and ends in front of one, and the inner region is empty. -/
theorem mask_keeps_shape_between_feeds :
    let text := "ab\nc\n\nd".toList
    2 ≤ 5 ∧ 5 ≤ text.length ∧ Masked text 2 5 (mask text (2 : Nat) (5 : Nat)) ∧
      mask text (2 : Nat) (5 : Nat) = "  \nc\n\n ".toList ∧
      Location.point "a.rs" (mask text (2 : Nat) (5 : Nat)) 6 = Location.point "a.rs" text 6 ∧
      mask (mask text (2 : Nat) (5 : Nat)) (4 : Nat) (4 : Nat) = mask text (4 : Nat) (4 : Nat) := by
  have hab : 2 ≤ 5 := by decide
  have hb : 5 ≤ "ab\nc\n\nd".toList.length := by decide
  have h := mask_keeps_shape hab hb
  exact ⟨hab, hb, h.1, by decide, h.2.1 "a.rs" 6, h.2.2 4 4 (by decide) (by decide) (by decide)⟩

end Text
end ShadowImpl
