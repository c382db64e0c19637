import Mathlib.Data.List.Forall2
import ShadowImpl.Diagnostic.Render

/-!
# Colour can be taken out again

A report in colour is the same report without colour with escape sequences in it. Taking them out
gives it back, provided that no text that is reported holds an escape character of its own.
-/

namespace ShadowImpl

/-! ## Taking escape sequences out -/

namespace Text

/-- The character that starts an escape sequence. -/
def escape : Char := '\x1b'

/-- A character that stands between the bracket of an escape sequence and its last letter. -/
def isParameter (c : Char) : Bool :=
  c.isDigit || c == ';'

/-- What stands behind an escape sequence, if the text goes on with one behind its
first character. -/
def behindSequence? : List Char → Option (List Char)
  | '[' :: r =>
    match r.dropWhile isParameter with
    | 'm' :: s => some s
    | _ => none
  | _ => none

theorem length_behindSequence?_lt {s r : List Char} (h : behindSequence? s = some r) :
    r.length < s.length := by
  unfold behindSequence? at h
  split at h
  · rename_i r'
    have hle : (r'.dropWhile isParameter).length ≤ r'.length :=
      (List.dropWhile_sublist isParameter).length_le
    split at h
    · rename_i hm
      rw [hm] at hle
      simp only [Option.some.injEq, List.length_cons] at h hle ⊢
      subst h
      omega
    · simp at h
  · simp at h

/-- The text without its escape sequences, each of which is looked for from left to right. -/
def withoutSequences : List Char → List Char
  | [] => []
  | c :: s =>
    if c = escape then
      match _h : behindSequence? s with
      | some r => withoutSequences r
      | none => c :: withoutSequences s
    else c :: withoutSequences s
termination_by s => s.length
decreasing_by
  · have := length_behindSequence?_lt _h
    simp only [List.length_cons]
    omega
  · simp
  · simp

/-- A text without escape characters stays as it is. -/
theorem withoutSequences_append {s : List Char} (h : escape ∉ s) (t : List Char) :
    withoutSequences (s ++ t) = s ++ withoutSequences t := by
  induction s with
  | nil => rfl
  | cons c s ih =>
    rw [List.mem_cons, not_or] at h
    rw [List.cons_append, withoutSequences, if_neg (Ne.symm h.1), ih h.2, List.cons_append]

/-- An escape sequence is taken out. -/
theorem withoutSequences_sequence {ps : List Char} (h : ps.all isParameter = true) (t : List Char) :
    withoutSequences (escape :: '[' :: (ps ++ 'm' :: t)) = withoutSequences t := by
  have hbehind : behindSequence? ('[' :: (ps ++ 'm' :: t)) = some t := by
    have hdrop : (ps ++ 'm' :: t).dropWhile isParameter = 'm' :: t := by
      rw [List.dropWhile_append_of_pos (List.all_eq_true.mp h),
        List.dropWhile_cons_of_neg (by decide)]
    simp only [behindSequence?, hdrop]
  rw [withoutSequences, if_pos rfl]
  split
  · rename_i r hr
    rw [hbehind, Option.some.injEq] at hr
    rw [hr]
  · rename_i hr
    rw [hbehind] at hr
    contradiction

end Text

/-! ## Texts in colour -/

open Text

/-- The text `s` is `s'` with escape sequences in it, which are complete: what stands behind them
does not matter. -/
def Text.Fades (s s' : String) : Prop :=
  ∀ t, withoutSequences (s.toList ++ t) = s'.toList ++ withoutSequences t

namespace Text.Fades

variable {s s' t t' : String}

theorem of_not_mem (h : escape ∉ s.toList) : Fades s s :=
  withoutSequences_append h

theorem append (h : Fades s s') (h' : Fades t t') : Fades (s ++ t) (s' ++ t') := by
  intro u
  rw [String.toList_append, List.append_assoc, h, h', String.toList_append, List.append_assoc]

theorem join {sep : String} (hsep : escape ∉ sep.toList) {parts parts' : List String}
    (h : List.Forall₂ Fades parts parts') : Fades (Text.join sep parts) (Text.join sep parts') := by
  induction h with
  | nil => exact of_not_mem (by simp [Text.join])
  | cons hp h ih =>
    cases h with
    | nil => exact hp
    | cons hq h => exact (hp.append (of_not_mem hsep)).append ih

/-- Taking the escape sequences out of a whole text. -/
theorem eq (h : Fades s s') : withoutSequences s.toList = s'.toList := by
  have := h []
  rwa [List.append_nil, withoutSequences, List.append_nil] at this

end Text.Fades

theorem Style.fades_codes (s : Style) : Fades s.codes "" := by
  intro t
  have hsequence (ps : List Char) (hps : ps.all isParameter = true) := withoutSequences_sequence hps
  -- bold comes first, and only then the colour
  cases s with
  | plain => rfl
  | error => exact (hsequence ['1'] (by decide) _).trans (hsequence ['3', '1'] (by decide) t)
  | strong => exact hsequence ['1'] (by decide) t
  | frame => exact (hsequence ['1'] (by decide) _).trans (hsequence ['3', '4'] (by decide) t)
  | margin => exact (hsequence ['1'] (by decide) _).trans (hsequence ['3', '6'] (by decide) t)

theorem Style.fades_reset : Fades Style.reset "" := by
  have hzero : ['0'].all isParameter = true := by decide
  exact withoutSequences_sequence hzero

/-! ## Lines in colour -/

/-- No text of the line holds an escape character. -/
def Line.Plain (l : Line) : Prop :=
  ∀ p ∈ l, escape ∉ p.text.toList

theorem Piece.fades_write {p : Piece} (h : escape ∉ p.text.toList) :
    Fades (p.write true) (p.write false) := by
  unfold Piece.write
  split
  · have := (p.style.fades_codes.append (.of_not_mem h)).append Style.fades_reset
    simpa using this
  · simpa using Fades.of_not_mem h

theorem Line.fades_write {l : Line} (h : l.Plain) : Fades (l.write true) (l.write false) := by
  unfold Line.write
  induction l with
  | nil => exact Fades.of_not_mem (by simp)
  | cons p l ih =>
    simp only [List.map_cons, String.join_cons]
    exact (Piece.fades_write (h p List.mem_cons_self)).append
      (ih fun q hq => h q (List.mem_cons_of_mem _ hq))

theorem Line.plain_pair {p q : Piece} (hp : escape ∉ p.text.toList) (hq : escape ∉ q.text.toList) :
    Line.Plain [p, q] := by
  intro r hr
  rcases List.mem_cons.mp hr with rfl | hr
  · exact hp
  · rw [List.mem_singleton] at hr
    rwa [hr]

/-! ## Reports in colour -/

/-- The texts that a diagnostic is made of. -/
def Diagnostic.texts (d : Diagnostic) : List String :=
  [d.message] ++ d.location.toList.map Location.file ++ d.code.toList ++ d.help.toList ++
    d.note.toList ++ d.label.toList

/-- The texts that a report is made of. -/
def Report.texts (r : Report) : List String :=
  r.sources.flatMap (fun s => [s.1, s.2]) ++ r.diagnostics.flatMap Diagnostic.texts

theorem escape_not_mem_append {s t : String} (hs : escape ∉ s.toList) (ht : escape ∉ t.toList) :
    escape ∉ (s ++ t).toList := by
  rw [String.toList_append, List.mem_append]
  exact not_or.mpr ⟨hs, ht⟩

theorem escape_not_mem_rule (n : Nat) {c : Char} (h : c ≠ escape) : escape ∉ (rule n c).toList := by
  unfold rule
  rw [String.toList_ofList]
  intro hmem
  exact h (List.eq_of_mem_replicate hmem).symm

theorem escape_not_mem_repr (n : Nat) : escape ∉ n.repr.toList := by
  rw [Nat.toList_repr]
  intro h
  have := Nat.isDigit_of_mem_toDigits (by omega) (by omega) h
  contradiction

theorem escape_not_mem_decimal (n : Int) : escape ∉ (decimal n).toList := by
  cases n with
  | ofNat n => exact escape_not_mem_repr n
  | negSucc n => exact escape_not_mem_append (by decide) (escape_not_mem_repr _)

/-- A line of a text has its characters. -/
theorem Text.mem_of_mem_lines {s l : List Char} (h : l ∈ lines s) {c : Char} (hc : c ∈ l) :
    c ∈ s := by
  induction s generalizing l with
  | nil => simp_all [lines]
  | cons d s ih =>
    unfold lines at h
    split at h
    · rcases List.mem_cons.mp h with rfl | h
      · simp at hc
      · exact List.mem_cons_of_mem _ (ih h hc)
    · split at h
      · simp_all
      · rename_i l' ls hlines
        rw [hlines] at ih
        rcases List.mem_cons.mp h with rfl | h
        · rcases List.mem_cons.mp hc with rfl | hc
          · exact List.mem_cons_self
          · exact List.mem_cons_of_mem _ (ih List.mem_cons_self hc)
        · exact List.mem_cons_of_mem _ (ih (List.mem_cons_of_mem _ h) hc)

namespace Diagnostic

variable {d : Diagnostic} (hd : ∀ t ∈ d.texts, escape ∉ t.toList)
include hd

/-- A text that may be missing, as a part of the diagnostic. -/
theorem escape_not_mem_nonempty? {o : Option String} (ho : ∀ t ∈ o, t ∈ d.texts) {t : String}
    (h : nonempty? o = some t) : escape ∉ t.toList := by
  apply hd
  apply ho
  exact (Option.filter_eq_some_iff.mp h).1

theorem plain_headline : d.headline.Plain := by
  unfold headline
  apply Line.plain_pair
  · apply escape_not_mem_append (by decide)
    split
    · rename_i c hc
      have hcode := escape_not_mem_nonempty? hd (fun t ht => by simp_all [texts]) hc
      exact escape_not_mem_append (escape_not_mem_append (by decide) hcode) (by decide)
    · decide
  · exact escape_not_mem_append (by decide) (hd d.message (by simp [texts]))

theorem escape_not_mem_underline (l : Location) (line : List Char) :
    escape ∉ (d.underline l line).toList := by
  unfold underline
  apply escape_not_mem_append
  · exact escape_not_mem_append (escape_not_mem_rule _ (by decide))
      (escape_not_mem_rule _ (by decide))
  · split
    · rename_i label hlabel
      have := escape_not_mem_nonempty? hd (fun t ht => by simp_all [texts]) hlabel
      exact escape_not_mem_append (by decide) this
    · decide

omit hd in
theorem plain_bar (gutter : Nat) : Line.Plain [⟨.frame, rule gutter ' ' ++ " |"⟩] := by
  intro p hp
  rw [List.mem_singleton] at hp
  subst hp
  exact escape_not_mem_append (escape_not_mem_rule _ (by decide)) (by decide)

omit hd in
theorem plain_numbered (gutter number : Nat) {line : List Char} (h : escape ∉ line) :
    (numbered gutter number line).Plain := by
  unfold numbered
  apply Line.plain_pair
  · exact escape_not_mem_append (escape_not_mem_append (escape_not_mem_rule _ (by decide))
      (escape_not_mem_repr _)) (by decide)
  · simpa using h

theorem plain_excerpt (l : Location) {lines : List (List Char)}
    (hlines : ∀ line ∈ lines, escape ∉ line) (gutter : Nat) :
    ∀ x ∈ d.excerpt l lines gutter, x.Plain := by
  intro x hx
  simp only [excerpt] at hx
  split at hx
  · simp at hx
  · rename_i line more hshown
    have hmem {y : List Char} (hy : y ∈ line :: more) : escape ∉ y := by
      apply hlines
      apply List.mem_of_mem_drop
      apply List.mem_of_mem_take
      rwa [hshown]
    simp only [List.mem_cons, List.mem_mapIdx] at hx
    rcases hx with rfl | rfl | rfl | ⟨i, hi, rfl⟩
    · exact plain_bar gutter
    · exact plain_numbered _ _ (hmem List.mem_cons_self)
    · apply Line.plain_pair
      · exact escape_not_mem_append (escape_not_mem_rule _ (by decide)) (by decide)
      · exact escape_not_mem_underline hd l line
    · exact plain_numbered _ _ (hmem (List.mem_cons_of_mem _ (List.getElem_mem hi)))

omit hd in
/-- The lines of help and note. -/
theorem mem_remarks {gutter : Nat} {x : Line} (h : x ∈ d.remarks gutter) :
    x = [⟨.frame, rule gutter ' ' ++ " |"⟩] ∨
      ∃ kind body text, (kind, body) ∈ [("help", d.help), ("note", d.note)] ∧
        nonempty? body = some text ∧
        x = [⟨.margin, rule gutter ' ' ++ " = "⟩, ⟨.strong, kind ++ ": "⟩, ⟨.plain, text⟩] := by
  simp only [remarks] at h
  split at h
  · simp at h
  · rename_i lines _
    rcases List.mem_cons.mp h with rfl | h
    · exact .inl rfl
    · right
      rcases List.mem_append.mp h with h | h
      · refine ⟨"help", d.help, ?_⟩
        split at h <;> simp_all
      · refine ⟨"note", d.note, ?_⟩
        split at h <;> simp_all

theorem plain_remarks (gutter : Nat) : ∀ x ∈ d.remarks gutter, x.Plain := by
  intro x hx
  rcases mem_remarks hx with rfl | ⟨kind, body, text, hkind, htext, rfl⟩
  · exact plain_bar gutter
  · -- a line of three pieces, the last of which is the text itself
    have hkind' : escape ∉ (kind ++ ": ").toList := by
      apply escape_not_mem_append _ (by decide)
      have hkinds : kind = "help" ∨ kind = "note" :=
        (List.mem_pair.mp hkind).imp (congrArg Prod.fst) (congrArg Prod.fst)
      rcases hkinds with rfl | rfl <;> decide
    have htext' : escape ∉ text.toList := by
      apply escape_not_mem_nonempty? hd _ htext
      intro t ht
      rcases List.mem_pair.mp hkind with h | h <;> simp_all [texts]
    intro p hp
    simp only [List.mem_cons, List.not_mem_nil, or_false] at hp
    rcases hp with rfl | rfl | rfl
    · exact escape_not_mem_append (escape_not_mem_rule _ (by decide)) (by decide)
    · exact hkind'
    · exact htext'

/-- No line of a diagnostic holds an escape character, if its texts and the one it
points into do not. -/
theorem plain_layout {sources : Sources} (hs : ∀ s ∈ sources, escape ∉ s.2.toList) :
    ∀ x ∈ d.layout sources, x.Plain := by
  unfold layout
  split
  · intro x hx
    rcases List.mem_cons.mp hx with rfl | hx
    · exact plain_headline hd
    · rcases List.mem_cons.mp hx with rfl | hx
      · exact Line.plain_pair (by decide) (by decide)
      · exact plain_remarks hd _ x hx
  · rename_i l hl
    have hfile : escape ∉ l.file.toList := hd l.file (by simp [texts, hl])
    intro x hx
    simp only [List.mem_cons, List.mem_append] at hx
    rcases hx with (rfl | rfl | hx) | hx
    · exact plain_headline hd
    · apply Line.plain_pair
      · exact escape_not_mem_append (escape_not_mem_rule _ (by decide)) (by decide)
      · unfold Location.print
        exact escape_not_mem_append (escape_not_mem_append (escape_not_mem_append
          (escape_not_mem_append hfile (by decide)) (escape_not_mem_decimal _)) (by decide))
          (escape_not_mem_decimal _)
    · split at hx
      · rename_i lines hlines
        split at hx
        · obtain ⟨text, htext, rfl⟩ := Option.map_eq_some_iff.mp hlines
          refine plain_excerpt hd l (fun line hline h => ?_) _ x hx
          obtain ⟨_, _, hsources, -⟩ := List.lookup_eq_some_iff.mp htext
          exact hs (l.file, text) (by simp [hsources]) (mem_of_mem_lines hline h)
        · simp at hx
      · simp at hx
    · exact plain_remarks hd _ x hx

/-- A diagnostic in colour is the one without colour with escape sequences in it. -/
theorem fades_render {sources : Sources} (hs : ∀ s ∈ sources, escape ∉ s.2.toList) :
    Fades (d.render sources true) (d.render sources false) := by
  unfold render
  apply Fades.join (by decide)
  rw [List.forall₂_map_left_iff, List.forall₂_map_right_iff, List.forall₂_same]
  exact fun x hx => Line.fades_write (plain_layout hd hs x hx)

end Diagnostic

namespace Report

theorem plain_conclusion (r : Report) : r.conclusion.Plain := by
  unfold conclusion
  apply Line.plain_pair (by decide)
  apply escape_not_mem_append
  · exact escape_not_mem_append (escape_not_mem_append (by decide) (escape_not_mem_repr _))
      (by decide)
  · split <;> decide

/-- Taking the escape sequences out of a report in colour gives the report without colour, and
likewise for each of its diagnostics, if none of the texts that the report is made of holds an
escape character. -/
theorem withoutSequences_render (r : Report) (h : ∀ t ∈ r.texts, escape ∉ t.toList) :
    withoutSequences (r.render true).toList = (r.render false).toList ∧
      ∀ d ∈ r.diagnostics,
        withoutSequences (d.render r.sources true).toList = (d.render r.sources false).toList := by
  have hsources : ∀ s ∈ r.sources, escape ∉ s.2.toList := by
    intro s hs
    apply h
    exact List.mem_append_left _ (List.mem_flatMap.mpr ⟨s, hs, by simp⟩)
  have hfades : ∀ d ∈ r.diagnostics, Fades (d.render r.sources true)
      (d.render r.sources false) := by
    intro d hd
    apply Diagnostic.fades_render _ hsources
    intro t ht
    exact h t (List.mem_append_right _ (List.mem_flatMap.mpr ⟨d, hd, ht⟩))
  constructor
  · apply Fades.eq
    unfold render
    apply Fades.append _ (.of_not_mem (by decide))
    apply Fades.join (by decide)
    apply List.rel_append
    · rw [List.forall₂_map_left_iff, List.forall₂_map_right_iff, List.forall₂_same]
      exact hfades
    · exact .cons (Line.fades_write r.plain_conclusion) .nil
  · exact fun d hd => (hfades d hd).eq

/-- A diagnostic whose texts look like the rest of an escape sequence. -/
def lookalikes : Report where
  sources := [("[0m", "[31m x\n;1m")]
  diagnostics := [{
    message := "[1m", location := some (.range "[0m" "[31m x\n;1m".toList 5 8), code := some "m",
    help := some "1m", note := some "", label := some "m" }]

theorem withoutSequences_render_lookalikes :
    (∀ t ∈ lookalikes.texts, escape ∉ t.toList) ∧
      withoutSequences (lookalikes.render true).toList = (lookalikes.render false).toList ∧
      lookalikes.render false =
        "error[m]: [1m\n --> [0m:1:6\n  |\n1 | [31m x\n  |      ^ m\n2 | ;1m\n  |\n  = help: 1m\n\n"
          ++ "error: aborting due to 1 previous error\n" := by
  have h : ∀ t ∈ lookalikes.texts, escape ∉ t.toList := by decide
  exact ⟨h, (withoutSequences_render lookalikes h).1, by decide +kernel⟩

end Report

end ShadowImpl
