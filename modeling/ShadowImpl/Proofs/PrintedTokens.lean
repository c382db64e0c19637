import ShadowImpl.Proofs.Phrases

/-!
# The tokens of a printed text

A printed text is taken apart again without regard to a grammar: each token is found where any token
is expected. Layout between tokens makes no difference, so what is kept of a token is its text.
-/

namespace ShadowImpl

open Lexeme Recogniser Reading

variable {x y z w g : List Char} {ws xs : List (List Char)} {t : Token} {ts us : List Token}
  {e : Expectation} {κ : Terminal}

/-! ## Tokens -/

/-- Any token but documentation, which is then a comment like others. -/
def Expected.undocumented : Expectation :=
  Expected.anything.filter fun κ => κ ≠ .docComment ∧ κ ≠ .innerDoc

/-- The tokens `us` are found at the front of `x`, one after the other, and `z` is left.
Documentation is a token inside of brackets that are not looked into and a comment elsewhere, so
both are allowed for. -/
inductive Lexed : List Char → List Token → List Char → Prop where
  | nil (x : List Char) : Lexed x [] x
  | cons {x y z : List Char} {e : Expectation} {t : Token} {us : List Token}
      (he : e ∈ [Expected.anything, Expected.undocumented]) (h : Next.of e x = .token t y)
      (hus : Lexed y us z) : Lexed x (t :: us) z

namespace Lexed

/-- Tokens that the scanner finds are found. -/
theorem of_scanned (h : Scanned x ts y) : Lexed x ts y := by
  induction h with
  | nil => exact .nil _
  | cons ht _ ih => exact .cons (by simp) ht ih

theorem append (h : Lexed x ts y) (h' : Lexed y us z) : Lexed x (ts ++ us) z := by
  induction h with
  | nil => exact h'
  | cons he ht _ ih => exact .cons he ht (ih h')

/-- What is taken and what is left make up the text. -/
theorem spelled (h : Lexed x ts y) : x = Token.spelled ts ++ y := by
  induction h with
  | nil => rfl
  | cons _ ht _ ih =>
    rw [(Next.of_eq_token ht).1, ih, Token.spelled_cons, List.append_assoc _ (Token.spelled _)]

/-- Layout in front of a text goes in front of its first token, or stays where it is. -/
theorem layout (hg : IsLayout g) (h : Lexed x ts y) :
    ∃ us g', IsLayout g' ∧ Lexed (g ++ x) us (g' ++ y) ∧ us.map Token.text = ts.map Token.text := by
  cases h with
  | nil => exact ⟨[], g, hg, .nil _, rfl⟩
  | @cons _ _ _ e t us he ht hus =>
    refine ⟨⟨t.kind, g ++ t.gap, t.text⟩ :: us, [], isLayout_nil, .cons he ?_ hus, rfl⟩
    rw [(gap_of_isLayout hg).of_append, ht]
    rfl

end Lexed

/-- The texts of the tokens at the front of `x`; `z` is left, but for layout in front of it. -/
def Worded (x : List Char) (ws : List (List Char)) (z : List Char) : Prop :=
  ∃ us g, IsLayout g ∧ Lexed x us (g ++ z) ∧ us.map Token.text = ws

namespace Worded

theorem nil (z : List Char) : Worded z [] z :=
  ⟨[], [], isLayout_nil, .nil z, rfl⟩

theorem layout (hg : IsLayout g) (h : Worded x ws z) : Worded (g ++ x) ws z := by
  obtain ⟨us, g₁, hg₁, hus, rfl⟩ := h
  obtain ⟨us', g', hg', hus', htexts⟩ := hus.layout hg
  refine ⟨us', g' ++ g₁, ?_, by rwa [List.append_assoc], htexts⟩
  intro c hc
  exact (List.mem_append.mp hc).elim (hg' c) (hg₁ c)

/-- A space in front makes no difference. -/
theorem space (h : Worded x ws z) : Worded (' ' :: x) ws z :=
  h.layout isLayout_space

theorem append (h : Worded x ws y) (h' : Worded y xs z) : Worded x (ws ++ xs) z := by
  obtain ⟨us, g, hg, hus, rfl⟩ := h
  obtain ⟨us', g', hg', hus', rfl⟩ := h'.layout hg
  exact ⟨us ++ us', g', hg', hus.append hus', List.map_append⟩

/-- One more token in front. -/
theorem cons (he : e ∈ [Expected.anything, Expected.undocumented])
    (ht : Next.of e x = .token ⟨κ, g, w⟩ y) (h : Worded y ws z) : Worded x (w :: ws) z := by
  obtain ⟨us, g', hg', hus, rfl⟩ := h
  exact ⟨_, g', hg', .cons he ht hus, rfl⟩

/-- A symbol that no longer one starts with is found in front of anything. -/
theorem symbol (hκ : finds Expected.anything κ = true) (h : Worded y ws z) :
    Worded (κ.spelling ++ y) (κ.spelling :: ws) z :=
  .cons (by simp) (of_symbol_front hκ) h

/-- A colon is found where no second one follows it. -/
theorem colon (hy : y.head? ≠ some ':') (h : Worded y ws z) :
    Worded (':' :: y) (Terminal.colon.spelling :: ws) z :=
  .cons (by simp) (of_colon (e := Expected.anything) (g := []) (by decide) isLayout_nil hy) h

/-- A name is found where no character follows that could belong to it. -/
theorem name (hw : IsName w) (hy : Breaks y) (h : Worded y ws z) : Worded (w ++ y) (w :: ws) z :=
  .cons (by simp) (of_name (e := Expected.anything) (g := []) hw (by decide) isLayout_nil hy) h

/-- A keyword is found where it is no part of a longer name. -/
theorem keyword (hκ : κ ∈ Terminal.keywords) (hy : Breaks y) (h : Worded y ws z) :
    Worded (κ.spelling ++ y) (κ.spelling :: ws) z := by
  have hall : ∀ κ ∈ Terminal.keywords, IsName κ.spelling := by
    simp only [IsName]
    decide
  exact .name (hall κ hκ) hy h

theorem lifetime (hw : IsLifetime w) (hy : Breaks y) (h : Worded y ws z) :
    Worded (w ++ y) (w :: ws) z :=
  .cons (by simp) (of_lifetime (e := Expected.anything) (g := []) hw (by decide) isLayout_nil hy) h

/-- A literal that has been read somewhere is found where no character follows that could belong to
it. -/
theorem literal {r : List Char} (ht : Next.of e x = .token t r)
    (hκ : t.kind ∈ [Terminal.number, .char, .string]) (hy : Breaks y) (h : Worded y ws z) :
    Worded (t.text ++ y) (t.text :: ws) z := by
  have hall : ∀ κ ∈ [Terminal.number, .char, .string], κ ∈ Expected.anything := by decide
  exact .cons (by simp) (of_literal (g := []) Expected.anything ht hκ (hall _ hκ) .nil hy) h

/-- A minus sign is found where it is no part of an arrow. -/
theorem minus (hy : y.head? ≠ some '>') (h : Worded y ws z) :
    Worded ('-' :: y) (Terminal.minus.spelling :: ws) z :=
  .cons (by simp) (of_minus (e := Expected.anything) (g := []) (by decide) isLayout_nil hy) h

/-- A number, and what stands between it and its sign. -/
theorem number {r : List Char} (ht : Next.of [.number] (t.gap ++ x) = .token t r)
    (hκ : t.kind = .number) (hy : Breaks y) (h : Worded y ws z) :
    Worded (t.gap ++ (t.text ++ y)) (t.text :: ws) z := by
  have hgap : Gap Expected.undocumented t.gap :=
    (gap_of_token ht).expect (fun h => absurd h (by decide)) fun h => absurd h (by decide)
  have hfound := of_literal Expected.undocumented ht (by simp [hκ]) (by rw [hκ]; decide) hgap hy
  exact .cons (by simp) hfound h

/-- Tokens that the scanner finds are found. -/
theorem of_scanned (h : Scanned x us z) : Worded x (us.map Token.text) z :=
  ⟨us, [], isLayout_nil, .of_scanned h, rfl⟩

end Worded

end ShadowImpl
