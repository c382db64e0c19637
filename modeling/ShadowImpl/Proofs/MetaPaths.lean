import ShadowImpl.Proofs.Enclosed

/-!
# The paths of meta items

A path is names with `::` between them. It is kept as text, without the blanks in it: comments that
stand between its tokens stay.
-/

namespace ShadowImpl

open Lexeme Recogniser

/-! ## Tokens of paths -/

namespace Token

/-- The text of tokens, without the gap in front of the first one. -/
def written : List Token → List Char
  | [] => []
  | t :: ts => t.text ++ spelled ts

/-- Whether a token can stand in the path of a meta item: a name, `unsafe` or `::`. -/
def inPath (t : Token) : Bool :=
  t.kind == .ident || t.kind == .kwUnsafe || t.kind == .pathSep

/-- A name in a path, in which there is neither a blank nor a colon. -/
structure IsName (t : Token) : Prop where
  kind : t.kind = .ident ∨ t.kind = .kwUnsafe
  chars : ∀ c ∈ t.text, isTokenChar c = true

/-- Names with `::` between them. -/
inductive Names : List Token → Prop where
  | last {t : Token} (h : t.IsName) : Names [t]
  | more {t sep : Token} {ts : List Token} (h : t.IsName) (hkind : sep.kind = .pathSep)
      (htext : sep.text = [':', ':']) (rest : Names ts) : Names (t :: sep :: ts)

/-- Names with `::` between them, and perhaps in front. -/
inductive Path : List Token → Prop where
  | names {ts : List Token} (h : Names ts) : Path ts
  | rooted {sep : Token} {ts : List Token} (hkind : sep.kind = .pathSep)
      (htext : sep.text = [':', ':']) (h : Names ts) : Path (sep :: ts)

variable {ts : List Token}

theorem IsName.inPath {t : Token} (h : t.IsName) : t.inPath = true := by
  rcases h.kind with h | h <;> simp [Token.inPath, h]

theorem Names.inPath (h : Names ts) : ∀ t ∈ ts, t.inPath = true := by
  induction h with
  | last h => simpa using h.inPath
  | more h hkind htext rest ih =>
    simp only [List.mem_cons, forall_eq_or_imp]
    exact ⟨h.inPath, by simp [Token.inPath, hkind], ih⟩

theorem Path.inPath (h : Path ts) : ∀ t ∈ ts, t.inPath = true := by
  cases h with
  | names h => exact h.inPath
  | rooted hkind htext h =>
    simp only [List.mem_cons, forall_eq_or_imp]
    exact ⟨by simp [Token.inPath, hkind], h.inPath⟩

/-- A path ends with a name, and in front of that there is nothing or a `::`. -/
theorem Names.exists_last (h : Names ts) :
    ∃ us t, ts = us ++ [t] ∧ t.IsName ∧
    (us = [] ∨ ∃ vs sep, us = vs ++ [sep] ∧ sep.text = [':', ':']) := by
  induction h with
  | @last t h => exact ⟨[], t, rfl, h, .inl rfl⟩
  | @more t sep ts h hkind htext rest ih =>
    obtain ⟨us, last, rfl, hlast, hus⟩ := ih
    refine ⟨t :: sep :: us, last, rfl, hlast, .inr ?_⟩
    rcases hus with rfl | ⟨vs, sep', rfl, hsep⟩
    · exact ⟨[t], sep, rfl, htext⟩
    · exact ⟨t :: sep :: vs, sep', rfl, hsep⟩

theorem Path.exists_last (h : Path ts) :
    ∃ us t, ts = us ++ [t] ∧ t.IsName ∧
    (us = [] ∨ ∃ vs sep, us = vs ++ [sep] ∧ sep.text = [':', ':']) := by
  cases h with
  | names h => exact h.exists_last
  | @rooted sep ts hkind htext h =>
    obtain ⟨us, t, rfl, ht, hus⟩ := h.exists_last
    refine ⟨sep :: us, t, rfl, ht, .inr ?_⟩
    rcases hus with rfl | ⟨vs, sep', rfl, hsep⟩
    · exact ⟨[], sep, rfl, htext⟩
    · exact ⟨sep :: vs, sep', rfl, hsep⟩

theorem written_append_singleton {us : List Token} (h : us ≠ []) (t : Token) :
    written (us ++ [t]) = written us ++ (t.gap ++ t.text) := by
  cases us with
  | nil => exact absurd rfl h
  | cons u us => simp [written]

end Token

theorem Scan.textFrom_takes {new : List Token} {s s' : Scan} (h : s.Takes new s') :
    s'.textFrom s.taken.length = Token.written new := by
  cases new with
  | nil =>
    rw [Scan.textFrom, h.1]
    simp [Token.written]
  | cons t new => exact textFrom_of_takes h

/-- The tokens of a meta item's path: those in front of its arguments or of its value. -/
def Meta.pathTokens (ts : List Token) (m : Meta Extent) : List Token :=
  ((ts.take m.place.last).drop m.place.first).takeWhile Token.inPath

/-- A path whose text is that of its tokens, without the blanks. -/
structure Meta.PathSound (ts : List Token) (m : Meta Extent) : Prop where
  tokens : Token.Path (m.pathTokens ts)
  text : m.path.toList = Text.squeeze (Token.written (m.pathTokens ts))

theorem Meta.PathSound.append {ts : List Token} {m : Meta Extent} (h : m.PathSound ts)
    (hlast : m.place.last ≤ ts.length) (us : List Token) : m.PathSound (ts ++ us) := by
  have htokens : m.pathTokens (ts ++ us) = m.pathTokens ts := by
    rw [pathTokens, pathTokens, List.take_append_of_le_length hlast]
  exact ⟨htokens ▸ h.tokens, htokens ▸ h.text⟩

/-! ## Reading paths -/

namespace Next

theorem isName_of_token {e : Expectation} {x r : List Char} {t : Token} (h : of e x = .token t r)
    (ht : t.kind = .ident ∨ t.kind = .kwUnsafe) : t.IsName := by
  refine ⟨ht, ?_⟩
  rcases ht with ht | ht
  · obtain ⟨-, u, hkind, hfirst⟩ := of_eq_token h
    obtain rfl : u = .ident := by
      by_contra hu
      rw [Terminal.settle, if_neg hu, ht] at hkind
      exact hu hkind.symm
    have hwithin := ident_within (Lexeme.first_eq_some hfirst).2
    intro c hc
    exact hwithin c (by simpa using hc)
  · rw [Next.text_of_token h (by simp [ht, Terminal.keywords]), ht]
    have hall : Terminal.kwUnsafe.spelling.all isTokenChar = true := by decide
    exact List.all_eq_true.mp hall

end Next

namespace Reading

/-- The first token that a reading takes is the one that stands next. -/
theorem head_of_takes {α : Type} {r : Reading α} {s s' : Scan} {a : α} (h : r.run s = .ok (a, s'))
    {t : Token} {new : List Token} (hnew : s.Takes (t :: new) s') : s.next.kind = t.kind := by
  -- By induction on the reading, up to the first token that it takes.
  have key : ∀ {r : Reading α}, r.run s = .ok (a, s') →
      s' = s ∨ ∃ u rest, s.next = .token u rest ∧
      (⟨u :: s.taken, rest, s'.expected⟩ : Scan).Later s' := by
    intro r h
    induction r with
    | done b => exact .inl (by simpa [run] using h : b = a ∧ s = s').2.symm
    | refuse => simp [run] at h
    | look k ih => exact ih _ h
    | count k ih => exact ih _ h
    | text i k ih => exact ih _ h
    | take e k ih =>
      simp only [run] at h
      split at h
      · rename_i u rest hnext
        exact .inr ⟨u, rest, hnext, (later_of_run h : Scan.Later _ _)⟩
      · simp at h
  rcases key h with rfl | ⟨u, rest, hnext, new', hlater⟩
  · have := congrArg List.length hnew.1
    simp only [List.length_append, List.length_reverse, List.length_cons] at this
    omega
  · have htaken : s.taken.reverse ++ (t :: new) = s.taken.reverse ++ (u :: new') := by
      have hleft := congrArg List.reverse hnew.1
      simp only [List.reverse_append, List.reverse_reverse] at hleft
      rw [← hleft, hlater]
      simp
    obtain rfl := (List.cons.inj (List.append_cancel_left htaken)).1
    rw [kind_of_token hnext]

end Reading

namespace Grammar

open Reading

variable {s s' : Scan} {n : Nat}

theorem metaNames_takes (h : (metaNames n).run s = .ok ((), s')) :
    ∃ us, s.Takes us s' ∧ Token.Names us ∧ s'.expected = Expected.afterMetaName ∧
      s'.next.kind ≠ .pathSep := by
  induction n generalizing s with
  | zero => simp [metaNames] at h
  | succ n ih =>
    -- Both kinds of names are read in the same way.
    have hname : (do
        let _ ← shift Expected.afterMetaName
        if ← optional .pathSep Expected.metaName then metaNames n :
          Reading Unit).run s = .ok ((), s') →
        (s.next.kind = .ident ∨ s.next.kind = .kwUnsafe) →
        ∃ us, s.Takes us s' ∧ Token.Names us ∧ s'.expected = Expected.afterMetaName ∧
          s'.next.kind ≠ .pathSep := by
      intro h hkind
      obtain ⟨t, r, hnext, h⟩ := run_shift_bind_eq_ok.mp h
      rw [kind_of_token hnext] at hkind
      have ht := Next.isName_of_token hnext hkind
      have htake := Scan.Takes.token hnext Expected.afterMetaName
      rcases run_optional_bind_eq_ok.mp h with ⟨sep, r', hsep, hsepkind, h⟩ | ⟨hne, h⟩
      · obtain ⟨us, htakes, hus, hexp, hkind'⟩ := ih (by simpa using h)
        refine ⟨t :: sep :: us, ?_, .more ht hsepkind ?_ hus, hexp, hkind'⟩
        · exact (htake.trans (Scan.Takes.token hsep _)).trans htakes
        · rw [Next.text_of_token hsep (by simp [hsepkind, Terminal.symbols]), hsepkind]
          rfl
      · obtain rfl : _ = s' := by simpa using h
        exact ⟨[t], htake, .last ht, rfl, hne⟩
    rw [metaNames, run_peek_bind] at h
    split at h
    · exact hname h (.inl ‹_›)
    · exact hname h (.inr ‹_›)
    · simp at h

/-- A path is read up to a token that cannot stand in one. -/
theorem metaPath_takes {path : String} (h : (metaPath n).run s = .ok (path, s')) :
    ∃ us, s.Takes us s' ∧ Token.Path us ∧ path.toList = Text.squeeze (Token.written us) ∧
      s'.next.kind ∉ [Terminal.ident, .kwUnsafe, .pathSep] := by
  have hrest : ∀ {s₁ : Scan} {ts : List Token}, s.Takes ts s₁ →
      (∀ us, Token.Names us → Token.Path (ts ++ us)) → (do
        metaNames n
        return String.ofList (Text.squeeze (← textFrom s.taken.length).toList) :
          Reading String).run s₁ = .ok (path, s') →
      ∃ us, s.Takes us s' ∧ Token.Path us ∧ path.toList = Text.squeeze (Token.written us) ∧
        s'.next.kind ∉ [Terminal.ident, .kwUnsafe, .pathSep] := by
    intro s₁ ts hts hpath h
    obtain ⟨⟨⟩, s₂, hnames, h⟩ := run_bind_eq_ok.mp h
    rw [run_textFrom_bind, run_pure] at h
    obtain ⟨rfl, rfl⟩ : _ = path ∧ s₂ = s' := by simpa using h
    obtain ⟨us, htakes, hus, hexp, hsep⟩ := metaNames_takes hnames
    refine ⟨ts ++ us, hts.trans htakes, hpath us hus, ?_, ?_⟩
    · rw [String.toList_ofList, Scan.textFrom_takes (hts.trans htakes)]
    · -- Neither a name nor `unsafe` is expected behind a name.
      have hnext : s₂.next.kind ∈ [Terminal.eof, .unknown] ++ Expected.afterMetaName := by
        cases hn : s₂.next with
        | token t r =>
          rw [Scan.next, hexp] at hn
          exact List.mem_append_right _ (Next.mem_of_not_ident hn (by decide))
        | ended | unknown => simp [Next.kind]
      generalize s₂.next.kind = κ at hnext hsep
      revert κ
      decide
  rw [metaPath, run_mark_bind] at h
  rcases run_optional_bind_eq_ok.mp h with ⟨sep, r, hnext, hkind, h⟩ | ⟨-, h⟩
  · refine hrest (Scan.Takes.token hnext _) (fun us hus => .rooted hkind ?_ hus) h
    rw [Next.text_of_token hnext (by simp [hkind, Terminal.symbols]), hkind]
    rfl
  · exact hrest (.refl s) (fun us hus => .names hus) h

theorem metaItem_pathSound {m : Meta Extent} (h : (metaItem n).run s = .ok (m, s')) :
    m.PathSound s'.taken.reverse := by
  rw [metaItem, run_mark_bind] at h
  obtain ⟨path, s₁, hpath, h⟩ := run_bind_eq_ok.mp h
  obtain ⟨form, s₂, hform, h⟩ := run_bind_eq_ok.mp h
  rw [run_mark_bind, run_pure] at h
  obtain ⟨rfl, rfl⟩ : _ = m ∧ s₂ = s' := by simpa using h
  obtain ⟨us, htakes, hus, htext, hnext⟩ := metaPath_takes hpath
  obtain ⟨vs, hok, -⟩ := takes_of_run (metaForm n) s₁
  have hvs := hok form s₂ hform
  -- The path ends in front of the first token that belongs to none.
  have htokens : Meta.pathTokens s₂.taken.reverse
      ⟨path, form, ⟨s.taken.length, s₂.taken.length⟩⟩ = us := by
    have hall : s₂.taken.reverse = s.taken.reverse ++ (us ++ vs) := by
      rw [hvs.1, htakes.1]
      simp
    have hslice : (s₂.taken.reverse.take s₂.taken.length).drop s.taken.length = us ++ vs := by
      rw [List.take_of_length_le (by simp), hall, List.drop_left' (by simp)]
    rw [Meta.pathTokens, hslice, List.takeWhile_append_of_pos hus.inPath]
    cases vs with
    | nil => simp
    | cons v vs =>
      rw [head_of_takes hform hvs] at hnext
      simp only [List.mem_cons, List.not_mem_nil, or_false, not_or] at hnext
      simp [Token.inPath, hnext]
  exact ⟨htokens ▸ hus, htokens ▸ htext⟩

end Grammar
end ShadowImpl
