import ShadowImpl.Proofs.Appending
import ShadowImpl.Proofs.ArgumentLists

/-!
# Lists of meta items one behind the other

A list of meta items that ends in the brackets of its last one goes on behind a comma. It is read as
before, and what stands behind the comma is read as on its own.
-/

namespace ShadowImpl

/-! ## Up to the closing bracket -/

namespace Grammar

open Reading

variable {s s' s₁ s₂ : Scan} {n k : Nat} {c : Token} {r : List Char} {m : Meta Extent}

/-- A meta item with a list of arguments that has been read up to the bracket which
closes the list. -/
structure OpenItem where
  first : Nat
  path : String
  opening : Nat
  close : Terminal

/-- A meta item with a list of arguments, up to the bracket that closes the list. -/
def openedItem (n : Nat) : Reading OpenItem := do
  let first ← mark
  let path ← metaPath (n + 1)
  match closer? (← peek) with
  | none => refuse
  | some close =>
    let opening ← mark
    let _ ← shift Expected.anything
    trees [.comma, .semi] n
    return ⟨first, path, opening, close⟩

/-- The bracket that closes the list of a meta item. -/
def closedItem (o : OpenItem) : Reading (Meta Extent) := do
  let _ ← token o.close Expected.anything
  let form : MetaForm Extent := .list (inside (← textFrom o.opening)) ⟨o.opening, ← mark⟩
  return ⟨o.path, form, ⟨o.first, ← mark⟩⟩

theorem closedItem_yields (o : OpenItem) : (closedItem o).Yields fun m => m.form.arguments ≠ [] :=
  .bind fun _ => .bind fun _ => .bind fun _ => .bind fun _ => List.cons_ne_nil _ _

theorem metaForm_of_closer {close : Terminal} (h : closer? s.next.kind = some close) :
    (metaForm (n + 1)).run s = (do
      let opening ← mark
      let _ ← shift Expected.anything
      trees [.comma, .semi] n
      let _ ← token close Expected.anything
      return MetaForm.list (inside (← textFrom opening)) (Extent.mk opening (← mark))).run s := by
  have hlist : (metaForm (n + 1)).run s = (do
      let opening ← mark
      group (n + 1)
      return MetaForm.list (inside (← textFrom opening)) (Extent.mk opening (← mark))).run s := by
    rw [metaForm, run_peek_bind]
    split <;> simp_all [closer?]
  simp only [hlist, run_mark_bind, group, bind_assoc, run_peek_bind, h]
  rfl

theorem arguments_of_not_closer {f : MetaForm Extent} (hs : closer? s.next.kind = none)
    (h : (metaForm n).run s = .ok (f, s')) : f.arguments = [] := by
  rw [metaForm, run_peek_bind] at h
  split at h
  · simp_all [closer?]
  · simp_all [closer?]
  · simp_all [closer?]
  · obtain ⟨t, r, -, h⟩ := run_shift_bind_eq_ok.mp h
    obtain ⟨⟨⟩, s₁, -, h⟩ := run_bind_eq_ok.mp h
    obtain ⟨rfl, -⟩ : _ = f ∧ _ := by simpa using h
    rfl
  · obtain ⟨rfl, -⟩ : _ = f ∧ _ := by simpa using h
    rfl

/-- A meta item has a list of arguments just if it can be read up to the bracket that closes the
list, and then the bracket. -/
theorem metaItem_list_iff : (metaItem (n + 1)).run s = .ok (m, s') ∧ m.form.arguments ≠ [] ↔
    ∃ o s₁, (openedItem n).run s = .ok (o, s₁) ∧ (closedItem o).run s₁ = .ok (m, s') := by
  -- Behind the path the two readings are the same if a bracket stands next.
  have hsame : ∀ path s₁ close, closer? s₁.next.kind = some close →
      (do
        let form ← metaForm (n + 1)
        return ⟨path, form, ⟨s.taken.length, ← mark⟩⟩ : Reading (Meta Extent)).run s₁ =
      (do
        let opening ← mark
        let _ ← shift Expected.anything
        trees [.comma, .semi] n
        closedItem ⟨s.taken.length, path, opening, close⟩).run s₁ := by
    intro path s₁ close hclose
    rw [run_bind, metaForm_of_closer hclose, ← run_bind]
    simp only [bind_assoc, closedItem, run_mark_bind]
    rfl
  rw [← run_bind_eq_ok]
  constructor
  · rintro ⟨h, hm⟩
    rw [metaItem, run_mark_bind] at h
    obtain ⟨path, s₁, hpath, h⟩ := run_bind_eq_ok.mp h
    simp only [openedItem, bind_assoc, run_mark_bind]
    rw [run_bind_of_ok hpath, run_peek_bind]
    cases hclose : closer? s₁.next.kind with
    | none =>
      obtain ⟨form, s₂, hform, h⟩ := run_bind_eq_ok.mp h
      rw [run_mark_bind, run_pure] at h
      obtain ⟨rfl, rfl⟩ : _ = m ∧ s₂ = s' := by simpa using h
      exact absurd (arguments_of_not_closer hclose hform) hm
    | some close =>
      rw [← h, hsame path s₁ close hclose]
      simp only [bind_assoc]
      rfl
  · intro h
    obtain ⟨o, s₂, -, hclosed⟩ := run_bind_eq_ok.mp h
    refine ⟨?_, (closedItem_yields o).of_run hclosed⟩
    simp only [openedItem, bind_assoc, run_mark_bind] at h
    obtain ⟨path, s₁, hpath, h⟩ := run_bind_eq_ok.mp h
    rw [run_peek_bind] at h
    rw [metaItem, run_mark_bind, run_bind_of_ok hpath]
    cases hclose : closer? s₁.next.kind with
    | none => simp [hclose, run_bind] at h
    | some close =>
      simp only [hclose, bind_assoc] at h
      rw [hsame path s₁ close hclose, ← h]
      rfl

theorem openedItem_alike {N : Nat → Nat → Prop} {n m L : Nat} {e : Expectation}
    {κ : Option Terminal} (hn : 16 * L + 1 ≤ n + 1) (hm : 16 * L + 1 ≤ m + 1) :
    Alike Follows N (fun _ _ o o' => N o.first o'.first ∧ o.path = o'.path ∧
      N o.opening o'.opening ∧ o.close = o'.close) L e κ (openedItem n) (openedItem m) := by
  rw [openedItem, openedItem]
  refine Alike.mark_bind fun i j hij => ?_
  refine (metaPath_steady (n + 1)).bind hn hm fun i₁ _ _ path hi₁ => ?_
  refine Alike.peek_bind fun t => ?_
  cases ht : closer? t with
  | none => exact .refuse
  | some close =>
    refine Alike.mark_bind fun i' j' hij' => ?_
    refine Alike.shift_bind (follows_of_orderly (orderly_of_closer ht)) fun i₂ hi₂ _ => ?_
    refine ((group_trees_alike n).2 _ m i₂ none (by omega) (by omega)).bind fun _ _ _ _ _ _ _ => ?_
    exact Alike.pure ⟨hij, rfl, hij', rfl⟩

theorem starts_of_metaItem (h : (metaItem n).run s = .ok (m, s')) :
    Expected.metaItem.contains s.next.kind = true := by
  rw [metaItem, run_mark_bind] at h
  obtain ⟨path, s₁, hpath, -⟩ := run_bind_eq_ok.mp h
  rw [metaPath, run_mark_bind] at hpath
  rcases run_optional_bind_eq_ok.mp hpath with ⟨t, r, hnext, ht, -⟩ | ⟨-, h⟩
  · rw [kind_of_token hnext, ht]
    rfl
  · obtain ⟨⟨⟩, s₂, hnames, -⟩ := run_bind_eq_ok.mp h
    cases n with
    | zero => simp [metaNames] at hnames
    | succ n =>
      rw [metaNames, run_peek_bind] at hnames
      split at hnames
      · rename_i hk
        rw [hk]
        rfl
      · rename_i hk
        rw [hk]
        rfl
      · simp at hnames

/-- A list of meta items. -/
abbrev metaItems (n i : Nat) : Reading (List (Meta Extent)) :=
  openList Expected.metaItem.contains Expected.metaItem (metaItem n) i

/-- An item of a list in front of others. -/
theorem run_openList_cons {α : Type} {starts : Terminal → Bool} {e : Expectation}
    {element : Reading α} {a : α} {as : List α} (hstarts : starts s.next.kind = true)
    (ha : element.run s = .ok (a, s₁)) (hnext : s₁.next = .token c r) (hc : c.kind = .comma)
    (has : (openList starts e element n).run ⟨c :: s₁.taken, r, e⟩ = .ok (as, s')) :
    (openList starts e element (n + 1)).run s = .ok (a :: as, s') := by
  rw [openList, run_peek_bind, if_pos hstarts, run_bind_of_ok ha]
  refine run_optional_bind_eq_ok.mpr (.inl ⟨c, r, hnext, hc, ?_⟩)
  rw [if_pos rfl, run_bind_of_ok has, run_pure]

/-! ## The same items with more behind them -/

/-- A scan of the meta items `ms`, with `w` behind it: the same items are read and then what `Q`
tells, given enough depth. -/
def GoesOn (w : List Char) (C : Scan → Prop) (n k : Nat)
    (Q : List (Meta Extent) → Scan → Prop) (s : Scan) (ms : List (Meta Extent)) : Prop :=
  ∀ s' j, Prolonged w C s s' → 16 * s.rest.length + 1 ≤ n → 16 * s.rest.length + 1 ≤ k →
    s.rest.length + w.length < j → (∀ m ∈ ms, m.form.arguments ≠ []) →
    ∃ ns s₂, (metaItems k j).run s' = .ok (ms ++ ns, s₂) ∧ Q ns s₂

section Behind

variable {C : Scan → Prop} {w z : List Char} (hC : Bears s₁ w C) (hend : s₁.next.kind = .eof)
  (hw : w.head? = some '\n')

include hC hend hw

/-- An item in front of the last token is read again. -/
theorem metaItem_again (hs : Prolonged w C s s') (h : (metaItem n).run s = .ok (m, s₂))
    (hbefore : s₁.Before s₂) (hn : 16 * s.rest.length + 1 ≤ n) (hk : 16 * s.rest.length + 1 ≤ k) :
    ∃ s₂', (metaItem k).run s' = .ok (m, s₂') ∧ Prolonged w C s₂ s₂' := by
  obtain ⟨hok, -⟩ := follow (metaItem_alike (e := s.expected) (κ := none) hn hk)
    (prolonged_lockstep hC hend hw) hs rfl (by simp) (Nat.le_refl _)
  obtain ⟨m', s₂', -, hrun, hm, hs₂⟩ := hok m s₂ h hbefore
  obtain rfl := Meta.eq_of_related hm
  exact ⟨s₂', hrun, hs₂⟩

/-- So is the item that ends in the last token, if it has a list of arguments. -/
theorem metaItem_last (hs : Prolonged w C s s') (h : (metaItem n).run s = .ok (m, s₁))
    (hm : m.form.arguments ≠ []) (hn : 16 * s.rest.length + 1 ≤ n)
    (hk : 16 * s.rest.length + 1 ≤ k) : s₁.Before s ∧ s₁.expected = Expected.anything ∧
      (metaItem k).run s' = .ok (m, ⟨s₁.taken, s₁.rest ++ w, Expected.anything⟩) := by
  obtain ⟨n, rfl⟩ : ∃ i, n = i + 1 := ⟨n - 1, by omega⟩
  obtain ⟨k, rfl⟩ : ∃ i, k = i + 1 := ⟨k - 1, by omega⟩
  obtain ⟨o, s₂, hopened, hclosed⟩ := metaItem_list_iff.mp ⟨h, hm⟩
  obtain ⟨t, r, hnext, ht, hclosed⟩ := run_token_bind_eq_ok.mp hclosed
  rw [run_textFrom_bind, run_mark_bind, run_mark_bind, run_pure] at hclosed
  obtain ⟨rfl, rfl⟩ := Prod.mk.inj (Except.ok.inj hclosed)
  have hbefore : Scan.Before ⟨t :: s₂.taken, r, Expected.anything⟩ s₂ := ⟨t, r, _, hnext, .refl _⟩
  -- Up to the closing bracket the two scans agree; what stands behind it is not looked at.
  have hlock := prolonged_lockstep hC hend hw
  obtain ⟨hok, -⟩ := follow (openedItem_alike (e := s.expected) (κ := none) hn hk) hlock hs rfl
    (by simp) (Nat.le_refl _)
  obtain ⟨o', s₂', -, hopened', ho, hs₂⟩ := hok o s₂ hopened hbefore
  obtain rfl : o = o' := by
    rcases o with ⟨_, _, _, _⟩
    rcases o' with ⟨_, _, _, _⟩
    obtain ⟨h₁, h₂, h₃, h₄⟩ := ho
    rw [OpenItem.mk.injEq]
    exact ⟨h₁.eq, h₂, h₃.eq, h₄⟩
  refine ⟨(seen_of_run hlock.back _ s).1 o s₂ hopened hbefore, rfl, ?_⟩
  have hnext' := hs₂.next_token hC hend hw hnext (.refl _)
  refine (metaItem_list_iff.mpr
    ⟨o, s₂', hopened', run_token_bind_eq_ok.mpr ⟨t, _, hnext', ht, ?_⟩⟩).1
  simp only [run_textFrom_bind, run_mark_bind, run_pure, Scan.textFrom, hs₂.taken]

/-- A list that ends in the brackets of its last item is read again, and behind the comma what
is found there. -/
theorem metaItems_again {Q : List (Meta Extent) → Scan → Prop} {i : Nat} {ms : List (Meta Extent)}
    (hz : w = '\n' :: ',' :: z) (hcomma : ∀ t ∈ s₁.taken.head?, t.kind ≠ .comma)
    (hrest : ∀ j, z.length < j → ∃ ns s₂, (metaItems k j).run
      ⟨⟨.comma, s₁.rest ++ ['\n'], [',']⟩ :: s₁.taken, z, Expected.metaItem⟩ =
        .ok (ns, s₂) ∧ Q ns s₂)
    (h : (metaItems n i).run s = .ok (ms, s₁)) :
    ms = [] ∧ s = s₁ ∨ GoesOn w C n k Q s ms := by
  refine openList_induction (P := fun s ms => ms = [] ∧ s = s₁ ∨ GoesOn w C n k Q s ms)
    (fun _ => .inl ⟨rfl, rfl⟩) ?last ?cons h
  case last =>
    intro s m hm _
    refine .inr fun s' j hs hn hk hj hlists => ?_
    obtain ⟨hbefore, he, hrun⟩ := metaItem_last hC hend hw hs hm (hlists m (by simp)) hn hk
    have hkind := (prolonged_lockstep hC hend hw).kind hs hbefore
    obtain ⟨j, rfl⟩ : ∃ j', j = j' + 1 := ⟨j - 1, by omega⟩
    obtain ⟨ns, s₂, hns, hQ⟩ := hrest j (by simp [hz] at hj; omega)
    -- On its own the text is over here; now there is a comma.
    obtain ⟨g, hg⟩ := Next.exists_ended hend
    have hnext : (⟨s₁.taken, s₁.rest ++ w, Expected.anything⟩ : Scan).next =
        .token ⟨.comma, s₁.rest ++ ['\n'], [',']⟩ z := by
      rw [Scan.next, hz]
      exact Next.of_comma (he ▸ hg) z
    refine ⟨ns, s₂, ?_, hQ⟩
    exact run_openList_cons (hkind ▸ starts_of_metaItem hm) hrun hnext rfl hns
  case cons =>
    intro s s₂ t r m ms i hm hnext ht hms ih
    refine .inr fun s' j hs hn hk hj hlists => ?_
    rcases ih with ⟨-, rfl⟩ | ih
    · -- This comma would be the last token.
      exact absurd ht (hcomma t rfl)
    have hreach : Scan.Reaches ⟨t :: s₂.taken, r, Expected.metaItem⟩ s₁ := Scan.reaches_of_run hms
    have hbefore : s₁.Before s₂ := ⟨t, r, _, hnext, hreach⟩
    obtain ⟨s₂', hrun, hs₂⟩ := metaItem_again hC hend hw hs hm hbefore hn hk
    have hlock := prolonged_lockstep hC hend hw
    have hkind := hlock.kind hs ((seen_of_run hlock.back _ s).1 m s₂ hm hbefore)
    have hs₃ : Prolonged w C ⟨t :: s₂.taken, r, Expected.metaItem⟩
        ⟨t :: s₂'.taken, r ++ w, Expected.metaItem⟩ :=
      ⟨by rw [hs₂.taken], rfl, rfl, hC.step hs₂.known hnext (.inr (by rw [ht]; rfl)) hreach⟩
    have hshorter : r.length < s.rest.length := by
      obtain ⟨new, hnew, -⟩ := takes_of_run (metaItem n) s
      have htext := List.length_pos_iff.mpr (Next.text_ne_nil_of_token hnext)
      rw [(hnew _ _ hm).2, (Next.of_eq_token hnext).1]
      simp only [List.length_append]
      omega
    obtain ⟨j, rfl⟩ : ∃ j', j = j' + 1 := ⟨j - 1, by omega⟩
    obtain ⟨ns, s₃, hns, hQ⟩ := ih _ j hs₃ (by simp only; omega) (by simp only; omega)
      (by simp only; omega) fun m' hm' => hlists m' (by simp [hm'])
    refine ⟨ns, s₃, ?_, hQ⟩
    exact run_openList_cons (hkind ▸ starts_of_metaItem hm) hrun
      (hs₂.next_token hC hend hw hnext hreach) ht hns

end Behind

end Grammar

/-! ## Whole lists -/

section Lists

open Grammar Reading

variable {a b g g' : List Char} {ms ms' : List (Meta Extent)} {ts ts' : List Token}

theorem Reading.parse_eq_ok_iff {α : Type} {reading : Nat → Reading α} {start : Expectation}
    {p : Parsed α} : Reading.parse reading start a = .ok p ↔ ∃ s,
      (reading (depth a)).run (.start start a) = .ok (p.value, s) ∧ s.next.kind = .eof ∧
        s.taken.reverse = p.tokens := by
  rw [parse_eq]
  constructor
  · intro h
    split at h
    · rename_i x s hrun
      obtain rfl := Except.ok.inj h
      obtain ⟨hrun, hend⟩ := whole_ok_iff.mp hrun
      exact ⟨s, hrun, hend, rfl⟩
    · simp at h
  · rintro ⟨s, hrun, hend, htokens⟩
    simp only [whole_ok_iff.mpr ⟨hrun, hend⟩, htokens]

/-- The text is read as the meta items `ms` from the tokens `ts`; the gap `g` is left. -/
structure MetaList (a : List Char) (ms : List (Meta Extent)) (ts : List Token) (g : List Char) :
    Prop where
  parse : Reading.parse (fun n => metaItems n n) Expected.metaItem a = .ok ⟨ms, ts⟩
  text : a = Token.spelled ts ++ g

theorem metaList_iff : MetaList a ms ts g ↔ ∃ s,
    (metaItems (depth a) (depth a)).run (.start Expected.metaItem a) = .ok
    (ms, s) ∧ s.next.kind = .eof ∧
      s.taken.reverse = ts ∧ s.rest = g := by
  constructor
  · rintro ⟨hparse, htext⟩
    obtain ⟨s, hrun, hend, rfl⟩ : ∃ s : Scan, _ ∧ _ ∧ s.taken.reverse = ts :=
      parse_eq_ok_iff.mp hparse
    exact ⟨s, hrun, hend, rfl, List.append_cancel_left ((text_of_run hrun).symm.trans htext)⟩
  · rintro ⟨s, hrun, hend, rfl, rfl⟩
    exact ⟨parse_eq_ok_iff.mpr ⟨s, hrun, hend, rfl⟩, text_of_run hrun⟩

/-- Meta items that are the same except for their places. -/
abbrev Meta.SameButPlace : Meta Extent → Meta Extent → Prop :=
  Meta.Related fun _ _ => True

theorem MetaForm.Related.unplaced {S : Extent → Extent → Prop} {f f' : MetaForm Extent}
    (h : f.Related S f') : f.Related (fun _ _ => True) f' := by
  cases h with
  | word => exact .word
  | list => exact .list trivial
  | value => exact .value

/-- A list is read behind other tokens as on its own. -/
theorem MetaList.behind (hb : MetaList b ms' ts' g') (taken : List Token) {k j : Nat}
    (hk : 16 * b.length + 1 ≤ k) (hj : b.length < j) : ∃ ns s,
      (metaItems k j).run ⟨taken, b, Expected.metaItem⟩ = .ok
      (ns, s) ∧ s.next.kind = .eof ∧ s.rest = g' ∧
        List.Forall₂ Meta.SameButPlace ms' ns := by
  obtain ⟨s₁, hrun, hend, -, rfl⟩ := metaList_iff.mp hb
  have halike : Alike anyTable (Offset 0 taken.length)
      (fun _ _ as bs => List.Forall₂ (Meta.Related (Extent.Related (Offset 0 taken.length))) as bs)
      b.length Expected.metaItem none (metaItems (depth b) (depth b)) (metaItems k j) :=
    Alike.openList (fun i hi e κ => (metaItem_alike (by simp [depth]; omega) (by omega)).mono_table
      fun _ _ _ _ => trivial) (fun _ => trivial) (by simp [depth]; omega) hj
  have hlock := sameRest_pace.lockstep [] taken
  have hstart : Paced (fun _ y y' => y = y') SameRest [] taken (.start Expected.metaItem b)
      ⟨taken, b, Expected.metaItem⟩ := .start ⟨rfl, rfl, .nil⟩ ⟨rfl, rfl⟩
  obtain ⟨hok, -⟩ := follow halike hlock hstart rfl (by simp) (Nat.le_refl _)
  obtain ⟨ns, s, -, hrun', hns, hpaced⟩ := hok ms' s₁ hrun trivial
  refine ⟨ns, s, hrun', ?_, ?_, ?_⟩
  · rw [← hlock.kind hpaced trivial, hend]
  · exact (rest_eq_of_paced hpaced).symm
  · exact hns.imp fun _ _ h => ⟨h.path, h.form.unplaced, trivial⟩

/-- Behind a list that ends in the brackets of its last item, and a comma, another
list may stand. -/
theorem MetaList.append (ha : MetaList a ms ts g) (hb : MetaList b ms' ts' g') (hms : ms ≠ [])
    (hcomma : ∀ t ∈ ts.getLast?, t.kind ≠ .comma) (hlists : ∀ m ∈ ms, m.form.arguments ≠ [])
    {C : Scan → Prop} (hstart : C (.start Expected.metaItem a))
    (hC : ∀ s₁ : Scan, s₁.taken.reverse = ts → s₁.rest = g → s₁.next.kind = .eof →
      Bears s₁ ('\n' :: ',' :: b) C) :
    ∃ ns us, MetaList (a ++ '\n' :: ',' :: b) (ms ++ ns) us g' ∧
      List.Forall₂ Meta.SameButPlace ms' ns := by
  obtain ⟨s₁, hrun, hend, rfl, rfl⟩ := metaList_iff.mp ha
  have hlast : ∀ t ∈ s₁.taken.head?, t.kind ≠ .comma := fun t ht => hcomma t (by simpa using ht)
  have hlong : 16 * a.length + 1 ≤ depth (a ++ '\n' :: ',' :: b) ∧
      16 * b.length + 1 ≤ depth (a ++ '\n' :: ',' :: b) ∧
      a.length + ('\n' :: ',' :: b).length < depth (a ++ '\n' :: ',' :: b) := by
    simp only [depth, List.length_append, List.length_cons]
    omega
  let Q : List (Meta Extent) → Scan → Prop := fun ns s => s.next.kind = .eof ∧ s.rest = g' ∧
    List.Forall₂ Meta.SameButPlace ms' ns
  have hagain := metaItems_again (Q := Q) (k := depth (a ++ '\n' :: ',' :: b))
    (hC s₁ rfl rfl hend) hend
    rfl rfl hlast (fun j hj => hb.behind _ hlong.2.1 hj) hrun
  obtain ⟨ns, s₂, hrun₂, hend₂, hrest₂, hns⟩ := hagain.resolve_left (fun h => hms h.1)
    (.start Expected.metaItem (a ++ '\n' :: ',' :: b)) _ ⟨rfl, rfl, rfl, hstart⟩
    (by simp only [depth, Scan.start]; omega) hlong.1 hlong.2.2 hlists
  exact ⟨ns, s₂.taken.reverse, metaList_iff.mpr ⟨s₂, hrun₂, hend₂, rfl, hrest₂⟩, hns⟩

end Lists

end ShadowImpl
