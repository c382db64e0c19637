import ShadowImpl.Proofs.Abridgement

/-!
# Brackets that match

Tokens whose brackets match are read as trees, and a token that is no bracket may be put anywhere
between them.
-/

namespace ShadowImpl

open Lexeme Recogniser Reading

variable {t o c : Token} {ts us xs ys : List Token} {x y r : List Char} {e : Expectation}

/-- A token that is no bracket may stand anywhere. -/
theorem Nested.insert (h : Nested (xs ++ ys)) (ht : Nested [t]) : Nested (xs ++ t :: ys) := by
  generalize hts : xs ++ ys = ts at h
  induction h generalizing xs ys with
  | nil =>
    obtain ⟨rfl, rfl⟩ := List.append_eq_nil_iff.mp hts
    exact ht
  | @token u hu =>
    rcases List.append_eq_singleton_iff.mp hts with ⟨rfl, rfl⟩ | ⟨rfl, rfl⟩
    · exact ht.append (.token hu)
    · exact (Nested.token hu).append ht
  | @append us vs hus hvs ih ih' =>
    rcases List.append_eq_append_iff.mp hts with ⟨ws, rfl, rfl⟩ | ⟨ws, rfl, rfl⟩
    · have := (@ih xs ws rfl).append hvs
      simpa using this
    · have := hus.append (@ih' ws ys rfl)
      simpa using this
  | @group o c us hclose hus ih =>
    cases xs with
    | nil =>
      rw [List.nil_append] at hts
      subst hts
      exact ht.append (.group hclose hus)
    | cons u xs =>
      obtain ⟨rfl, hrest⟩ : u = o ∧ xs ++ ys = us ++ [c] := by simpa using hts
      -- Inside of a group, or behind it
      rcases List.eq_nil_or_concat' ys with rfl | ⟨ys, d, rfl⟩
      · rw [List.append_nil] at hrest
        subst hrest
        exact (Nested.group hclose hus).append ht
      · rw [← List.append_assoc] at hrest
        obtain ⟨rfl, hd⟩ := List.append_inj' hrest rfl
        obtain rfl := (List.cons.inj hd).1
        have := Nested.group hclose (@ih xs ys rfl)
        simpa using this

/-- Whether brackets match depends on the kinds of the tokens. -/
theorem Nested.of_kinds (h : Nested ts) (hus : us.map Token.kind = ts.map Token.kind) :
    Nested us := by
  induction h generalizing us with
  | nil =>
    obtain rfl : us = [] := by simpa using hus
    exact .nil
  | token ht =>
    obtain ⟨u, vs, rfl, hu, hvs⟩ := List.map_eq_cons_iff.mp hus
    obtain rfl : vs = [] := by simpa using hvs
    exact .token (hu ▸ ht)
  | append _ _ ih ih' =>
    rw [List.map_append] at hus
    obtain ⟨vs, ws, rfl, hvs, hws⟩ := List.map_eq_append_iff.mp hus
    exact (ih hvs).append (ih' hws)
  | group hclose _ ih =>
    rw [List.map_cons, List.map_append] at hus
    obtain ⟨o', us', rfl, ho, hus⟩ := List.map_eq_cons_iff.mp hus
    obtain ⟨vs, ws, rfl, hvs, hws⟩ := List.map_eq_append_iff.mp hus
    obtain ⟨c', ws, rfl, hc, hnil⟩ := List.map_eq_cons_iff.mp hws
    obtain rfl : ws = [] := by simpa using hnil
    exact .group (by rw [ho, hc, hclose]) (ih hvs)

/-- A token is taken. -/
theorem Reading.run_shift_bind_of_token {β : Type} {s : Scan} {r : List Char}
    (h : s.next = .token t r) (f : String → Reading β) :
    (shift e >>= f).run s = (f (String.ofList t.text)).run ⟨t :: s.taken, r, e⟩ := by
  change (Reading.take e f).run s = _
  rw [run, h]

namespace Grammar

/-- The separators between brackets. -/
abbrev separators : List Terminal := [.comma, .semi]

theorem not_closer_of_admits {κ : Terminal} (h : admits separators κ = true) :
    (closer? κ).isSome = false := by
  cases κ <;> first | rfl | exact absurd h (by decide)

theorem closer_stops {κ close : Terminal} (h : closer? κ = some close) :
    (closer? close).isSome = false ∧ admits separators close = false := by
  cases κ <;> simp only [closer?, Option.some.injEq, reduceCtorEq] at h <;> subst h <;> decide

/-- A group is read as what stands in it. -/
theorem group_of_trees (taken : List Token) {z : List Char} {k m : Nat}
    (hopen : Next.of e x = .token o r) (hclose : closer? o.kind = some c.kind)
    (hrun : (trees separators m).run ⟨o :: taken, r, Expected.anything⟩ =
      (trees separators (k + 1)).run ⟨ts.reverse ++ o :: taken, z, Expected.anything⟩)
    (hlast : Next.of Expected.anything z = .token c y) :
    (group (m + 1)).run ⟨taken, x, e⟩ =
      .ok ((), ⟨(ts ++ [c]).reverse ++ o :: taken, y, Expected.anything⟩) := by
  have hnext : (Scan.mk taken x e).next = .token o r := hopen
  have hnext' : (Scan.mk (ts.reverse ++ o :: taken) z Expected.anything).next = .token c y := hlast
  obtain ⟨hc, hc'⟩ := closer_stops hclose
  have hstop : (trees separators (k + 1)).run ⟨ts.reverse ++ o :: taken, z, Expected.anything⟩ =
      .ok ((), ⟨ts.reverse ++ o :: taken, z, Expected.anything⟩) := by
    rw [trees, run_peek_bind, kind_of_token hnext', if_neg (by simp [hc]), if_neg (by simp [hc'])]
    rfl
  rw [group, run_peek_bind, kind_of_token hnext, hclose]
  refine run_shift_bind_eq_ok.mpr ⟨o, r, hopen, ?_⟩
  rw [run_bind_of_ok (hrun.trans hstop)]
  refine run_token_bind_eq_ok.mpr ⟨c, y, hlast, rfl, ?_⟩
  simp

/-- Tokens whose brackets match are read up to their end; each costs at most one step
of the depth. -/
theorem trees_of_nested (h : Nested ts) (hscan : Scanned x ts y) :
    ∃ j ≤ ts.length, ∀ m > ts.length, ∀ taken, (trees separators m).run
      ⟨taken, x, Expected.anything⟩ = (trees separators (m - j)).run
      ⟨ts.reverse ++ taken, y, Expected.anything⟩ := by
  -- By induction on how the brackets are nested. A group is one tree, however many tokens it has.
  induction h generalizing x y with
  | nil =>
    cases hscan
    exact ⟨0, Nat.le_refl _, fun _ _ _ => rfl⟩
  | @token t ht =>
    cases hscan with
    | cons hnext hnil =>
      cases hnil
      refine ⟨1, Nat.le_refl _, fun m hm taken => ?_⟩
      obtain ⟨m, rfl⟩ : ∃ i, m = i + 1 := ⟨m - 1, by omega⟩
      have hnext' : (Scan.mk taken x Expected.anything).next = .token t y := hnext
      rw [trees, run_peek_bind, kind_of_token hnext', if_neg (by simp [not_closer_of_admits ht]),
        if_pos ht]
      exact run_shift_bind_of_token hnext' _
  | @append ts us _ _ ih ih' =>
    obtain ⟨z, hscan₁, hscan₂⟩ := hscan.of_append
    obtain ⟨i, hi, hrun⟩ := ih hscan₁
    obtain ⟨j, hj, hrun'⟩ := ih' hscan₂
    refine ⟨i + j, by simp only [List.length_append]; omega, fun m hm taken => ?_⟩
    rw [List.length_append] at hm
    rw [hrun m (by omega), hrun' (m - i) (by omega), List.reverse_append, List.append_assoc,
      Nat.sub_sub]
  | @group o c ts hclose _ ih =>
    cases hscan with
    | @cons _ r _ _ _ hopen hscan =>
      obtain ⟨z, hscan₁, hscan₂⟩ := hscan.of_append
      cases hscan₂ with
      | cons hlast hnil =>
        cases hnil
        obtain ⟨i, hi, hrun⟩ := ih hscan₁
        refine ⟨1, by simp, fun m hm taken => ?_⟩
        simp only [List.length_cons, List.length_append, List.length_nil] at hm
        obtain ⟨m, rfl⟩ : ∃ k, m = k + 2 := ⟨m - 2, by omega⟩
        obtain ⟨k, hk⟩ : ∃ k, m - i = k + 1 := ⟨m - i - 1, by omega⟩
        have hgroup := group_of_trees taken (k := k) hopen hclose
          (by rw [hrun m (by omega), hk]) hlast
        have hnext : (Scan.mk taken x Expected.anything).next = .token o r := hopen
        rw [trees, run_peek_bind, kind_of_token hnext, if_pos (by simp [hclose]),
          run_bind_of_ok hgroup]
        simp

/-- A group is read where brackets match. -/
theorem group_of_nested {taken : List Token} {m : Nat} (hopen : Next.of e x = .token o r)
    (hscan : Scanned r (ts ++ [c]) y) (hclose : closer? o.kind = some c.kind) (h : Nested ts)
    (hm : ts.length + 1 < m) :
    (group m).run ⟨taken, x, e⟩ =
      .ok ((), ⟨(ts ++ [c]).reverse ++ o :: taken, y, Expected.anything⟩) := by
  obtain ⟨m, rfl⟩ : ∃ k, m = k + 1 := ⟨m - 1, by omega⟩
  obtain ⟨z, hscan₁, hscan₂⟩ := hscan.of_append
  cases hscan₂ with
  | cons hlast hnil =>
    cases hnil
    obtain ⟨i, hi, hrun⟩ := trees_of_nested h hscan₁
    obtain ⟨k, hk⟩ : ∃ k, m - i = k + 1 := ⟨m - i - 1, by omega⟩
    exact group_of_trees taken (k := k) hopen hclose (by rw [hrun m (by omega), hk]) hlast

end Grammar
end ShadowImpl
