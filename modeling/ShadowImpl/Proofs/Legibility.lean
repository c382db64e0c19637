import ShadowImpl.Proofs.Continuation
import ShadowImpl.Proofs.Regions

/-!
# Legible phrases

A printed phrase is legible in front of a text if it is read there as what it is. What has to
be known of the text depends on the kind of the phrase: behind a type nothing may stand that
goes on with it, behind a predicate only a separator may stand, and some phrases end with a
bracket of their own.
-/

namespace ShadowImpl

open Filter Lexeme Recogniser Reading

variable {s s' s₁ : Scan} {e : Expectation} {κ : Terminal} {t : Token} {w y z r : List Char}
    {c : Char}

/-! ## First tokens -/

/-- A token that has been taken stood next. -/
theorem Scan.Shifts.kind_next (h : s.Shifts κ e t s') : s.next.kind = κ :=
  (kind_of_token h.next).trans h.kind

namespace Phrase.Derives

/-- Segments start with a name. -/
theorem kind_of_segments {segs : List Segment} (h : Derives .segments s segs s') :
    s.next.kind = .ident := by
  cases h with
  | last _ hname => exact hname.kind_next
  | more _ hname => exact hname.kind_next

/-- A function type starts with its ABI, or with `fn` if it names none. -/
theorem kind_of_abi {abi : Option String} (h : s.Abi abi s') (hfn : s'.Shifts .kwFn e t s₁) :
    (Ty.fnPtr [] false abi [] none).opening = s.next.kind := by
  cases h with
  | absent => exact hfn.kind_next.symm
  | bare hextern => exact hextern.kind_next.symm
  | named hextern => exact hextern.kind_next.symm

/-- A type starts in print as it did where it was read, unless that was with an empty binder. -/
theorem opening_of_ty {a : Ty} (h : Derives .ty s a s') : a.opening = s.next.kind ∨
    s.next.kind = .kwFor ∧ a.opening ∈ [Terminal.kwFor, .kwUnsafe, .kwExtern, .kwFn] := by
  cases h with
  | path hp =>
    cases hp with
    | segments hrooted hsegs =>
      cases hrooted with
      | absent => exact .inl hsegs.kind_of_segments.symm
      | present h => exact .inl h.kind_next.symm
  | qualified h | ref h | unit h | tuple h | paren h | slice h | never h | implTrait h
  | dynTrait h =>
    exact .inl h.kind_next.symm
  | ptr mutable h => exact .inl h.kind_next.symm
  | array n h => exact .inl h.kind_next.symm
  | @fnPtr _ _ _ _ _ _ _ _ _ _ ls isUnsafe abi inputs output hls hsafety habi hfn =>
    have hopening : ∀ ls, (Ty.fnPtr ls isUnsafe abi inputs output).opening ∈
        [Terminal.kwFor, .kwUnsafe, .kwExtern, .kwFn] := by
      intro ls
      cases ls <;> cases isUnsafe <;> cases abi <;> simp [Ty.opening]
    cases hls with
    | bound hfor => exact .inr ⟨hfor.kind_next, hopening _⟩
    | unbound =>
      left
      cases hsafety with
      | absent =>
        rw [← kind_of_abi habi hfn]
        cases abi <;> rfl
      | present h => exact h.kind_next.symm

/-- A type that does not start with a name where it is read does not in print. -/
theorem opening_ne_ident {a : Ty} (h : Derives .ty s a s') (hne : s.next.kind ≠ .ident) :
    a.opening ≠ .ident := by
  rcases h.opening_of_ty with hop | ⟨-, hop⟩
  · rwa [hop]
  · intro hident
    rw [hident] at hop
    simp at hop

end Phrase.Derives

/-! ## Legible phrases -/

theorem breaks_nil : Breaks [] := by
  simp [Breaks]

/-- Two texts are quiet together if the second one does not go on with the first. -/
theorem Quiet.append (hw : Quiet y w) (hz : Quiet y z) (hb : Breaks z) : Quiet y (w ++ z) := by
  intro m hm
  refine (Mark.infix_append ?_ hm).elim (hw m) (hz m)
  constructor
  all_goals
    intro hc
    exact absurd (hb _ hc) (by decide)

/-- A printed phrase in front of a quiet text leaves it quiet: it holds no mark that has not been
closed where it was read. -/
theorem Phrase.Derives.quiet_front {k : Phrase} {v : k.Value} (h : Derives k s v s')
    (projected : List String) (hz : Quiet s'.rest z) (hb : Breaks z) :
    Quiet s.rest ((k.print (k.project projected v)).toList ++ z) :=
  (h.quiet projected).append (h.reaches.quiet hz) hb

/-- In front of a comma or of a bracket that closes a list. -/
def Separated (s : Scan) (z : List Char) : Prop :=
  ∃ c r, z = c :: r ∧ c ∈ [',', '>', ')'] ∧ Quiet s.rest z

/-- A separator goes on with nothing. -/
theorem Separated.continues (h : Separated s z) : Continues s z := by
  obtain ⟨c, r, rfl, hc, hq⟩ := h
  refine .front ?_ hq
  simp only [List.mem_cons, List.not_mem_nil, or_false] at hc ⊢
  tauto

/-- At the end of a predicate: in front of another one, or of the semicolon behind the last one. -/
structure Finishes (s : Scan) (z : List Char) : Prop where
  front : ∀ c ∈ z.head?, c ∈ [',', ';']
  quiet : Quiet s.rest z

theorem Finishes.nil (s : Scan) : Finishes s [] :=
  ⟨by simp, .nil⟩

/-- What may stand behind a predicate goes on with no part of it. -/
theorem Finishes.continues (h : Finishes s z) : Continues s z := by
  cases z with
  | nil =>
    exact ⟨.nil, by simp [Opens, Terminal.spelling], by simp [Opens, Terminal.spelling], .nil⟩
  | cons c r =>
    have hc : c = ',' ∨ c = ';' := by simpa using h.front c rfl
    rcases hc with rfl | rfl <;> exact .front (by simp) h.quiet

/-- Only separators start with a comma or a semicolon. -/
theorem eq_separator_of_starts {l : Lexeme} (hc : c ∈ [',', ';']) (h : l.starts c = true) :
    l ∈ [.terminal .comma, .terminal .semi] := by
  simp only [List.mem_cons, List.not_mem_nil, or_false] at hc
  revert h
  rcases hc with rfl | rfl <;> cases l with
  | layout | comment => decide
  | terminal κ => cases κ <;> decide

/-- What starts with a separator is one or nothing. -/
theorem kind_of_separator (hc : c ∈ [',', ';']) (e : Expectation) (r : List Char) :
    (Next.of e (c :: r)).kind ∈ [Terminal.comma, .semi, .unknown] := by
  cases hf : first e (c :: r) with
  | none =>
    rw [Next.of_unknown (by simp) hf]
    simp [Next.kind]
  | some p =>
    obtain ⟨l, k⟩ := p
    have hl := eq_separator_of_starts hc (starts_of_recognise (first_eq_some hf).2)
    simp only [List.mem_cons, List.not_mem_nil, or_false] at hl
    rcases hl with rfl | rfl <;> rw [Next.of_token hf] <;> simp [Next.kind, Terminal.settle]

/-- No colon stands behind a predicate. -/
theorem Finishes.head_ne (h : Finishes s z) : z.head? ≠ some ':' := by
  intro hc
  have := h.front ':' (by simp [hc])
  simp at this

/-- Behind a predicate the text ends, or a separator stands there, or no token does. -/
theorem Finishes.kind (h : Finishes s z) (e : Expectation) :
    (Next.of e z).kind ∈ [Terminal.eof, .comma, .semi, .unknown] := by
  cases z with
  | nil => simp [Next.kind]
  | cons c r => exact List.mem_cons_of_mem _ (kind_of_separator (h.front c rfl) e r)

/-- Behind a type no arguments of its last segment follow. -/
theorem Ends.argsRead (h : Ends z) : Grammar.ArgsRead none z := by
  refine ⟨h.breaks, fun e => ?_⟩
  simp only [List.mem_cons, List.not_mem_nil, or_false, not_or]
  exact ⟨h.kind_ne e (by simp), h.kind_ne e (by simp)⟩

namespace Phrase

open Grammar

/-- Every label in the syntax that a phrase comes to satisfies `p`. -/
def All (p : Label → Prop) : (k : Phrase) → k.Value → Prop
  | ty, t => t.view.All p
  | path, q => q.view.All p
  | segments, segs => Part.AllEach p (viewSegments segs)
  | args, a => Part.AllEach p (viewArgs a)
  | genericArg, a => a.view.All p
  | fnArg, a => p (.fnArg a.name) ∧ a.ty.view.All p
  | bound, b => b.view.All p
  | binder, _ => True
  | lifetime _, _ => True
  | commas k _ _ _, as => ∀ a ∈ as, k.All p a
  | pluses k _, as => ∀ a ∈ as, k.All p a
  | after _ _ k, o => ∀ a ∈ o, k.All p a
  | orNone k _, as => ∀ a ∈ as, k.All p a
  | predicate, q => q.view.All p
  | predicates, qs => ∀ q ∈ qs, q.view.All p

/-- What a text has to be to stand behind a printed phrase, in the place of what
stands next in `s`. -/
def Ready : Phrase → Scan → List Char → Prop
  | genericArg, s, z | fnArg, s, z => Separated s z
  | binder, _, _ | lifetime _, _, _ => True
  | commas _ _ _ _, s, z => Breaks z ∧ Quiet s.rest z
  | after κ _ _, s, z => Continues s z ∧ ∀ e, (Next.of e z).kind ≠ κ
  | orNone _ _, s, z | predicate, s, z => Finishes s z
  | predicates, _, z => z = []
  | _, s, z => Continues s z

/-- In front of `z`, the printed phrase is read as what it is. -/
def Legible : (k : Phrase) → k.Value → List Char → Prop
  | ty, t, z => Typed t z
  | path, p, z => Segmented p.segments z
  | segments, segs, z => Segmented segs z
  | args, a, z => ArgsRead a z
  | genericArg, a, z => ArgRead a z
  | fnArg, a, z => FnArgRead a z
  | bound, b, z => BoundRead b z
  | binder, ls, _ => ∀ l ∈ ls, IsLifetime l.name.toList
  | lifetime _, l, _ => IsLifetime l.name.toList
  | commas ty _ _ _, ts, z => TypesRead ts z
  | commas genericArg _ _ _, as, z => AngleRead as z
  | commas fnArg _ _ _, as, z => FnArgsRead as z
  | commas (lifetime _) _ _ _, ls, _ => ∀ l ∈ ls, IsLifetime l.name.toList
  | pluses bound _, bs, z => BoundsRead bs z
  | pluses (lifetime _) _, ls, _ => ∀ l ∈ ls, IsLifetime l.name.toList
  | after κ _ _, none, z => ∀ e, (Next.of e z).kind ≠ κ
  | after _ _ k, some a, z => k.Legible a z
  | orNone bound _, bs, z => PredicateBounds bs z
  | orNone (lifetime _) _, ls, _ => ∀ l ∈ ls, IsLifetime l.name.toList
  | predicate, p, z => PredicateRead p z
  | predicates, ps, _ => OpenListed Grammar.predicate Expected.predicate.contains Expected.predicate
      (Text.join ", " (ps.map Predicate.print)).toList ps
  | _, _, _ => True

/-! ## Lists -/

variable {k : Phrase} {e' : Expectation} {close : Terminal} {projected : List String}

/-- One more element in front of a list in brackets. -/
theorem commaListed_cons {α : Type} {element : Nat → Reading α} {print : α → String}
    {a : α} {as : List α} {d : Char} (hclose : close.spelling = [d]) (hd : d ∈ ['>', ')'])
    (hne : close ≠ .comma)
    (hq : Quiet s.rest ((Text.join ", " (as.map print)).toList ++ (close.spelling ++ z)))
    (ha : ∀ z', Separated s z' → Listed element [.comma, close] (· ≠ close) e (print a).toList a z')
    (has : CommaListed element close e e' (Text.join ", " (as.map print)).toList as z) :
    CommaListed element close e e' (Text.join ", " ((a :: as).map print)).toList (a :: as) z := by
  cases as with
  | nil =>
    refine .single (ha _ ⟨d, z, by rw [hclose]; rfl, ?_, by simpa [Text.join] using hq⟩) hne
    exact List.mem_cons_of_mem _ hd
  | cons a' as =>
    rw [List.map_cons, List.map_cons, join_cons_cons]
    exact .cons (ha _ ⟨',', _, rfl, by simp, by simpa using hq⟩) has

theorem legible_nil (hk : Bracketed k close e e') : (commas k close e e').Legible [] z := by
  cases hk with
  | types | genericArgs | fnArgs => exact .nil (by decide)
  | lifetimes => simp [Legible]

/-- An element in front of the rest of a list in brackets. -/
theorem legible_cons (hk : Bracketed k close e e') {a : k.Value} {as : List k.Value}
    (hq : Quiet s.rest (((commas k close e e').print as).toList ++ z))
    (ha : ∀ z', Separated s z' → k.Legible a z') (has : (commas k close e e').Legible as z) :
    (commas k close e e').Legible (a :: as) z := by
  have hq' : Quiet s.rest ((Text.join ", " (as.map k.print)).toList ++ (close.spelling ++ z)) := by
    simpa [print] using hq
  cases hk with
  | types =>
    rw [Legible, TypesRead, printTys_eq_map] at has ⊢
    exact commaListed_cons rfl (by simp) (by decide) hq'
      (fun z' hz' => Typed.listed (ha z' hz')) has
  | genericArgs =>
    rw [Legible, AngleRead, printGenericArgs_eq_map] at has ⊢
    exact commaListed_cons rfl (by simp) (by decide) hq' ha has
  | fnArgs =>
    rw [Legible, FnArgsRead, printFnArgs_eq_map] at has ⊢
    exact commaListed_cons rfl (by simp) (by decide) hq' ha has
  | lifetimes =>
    have ha' : IsLifetime a.name.toList := ha [','] ⟨',', [], rfl, by simp, by simp⟩
    simpa [Legible] using ⟨ha', has⟩

/-! ## Paths -/

/-- A name that has been read, and is spelled as no keyword is, is a name wherever it stands. -/
theorem isPlainName_of_shifts (h : s.Shifts .ident e t s')
    (hplain : ∀ κ ∈ Terminal.keywords, κ.spelling ≠ t.text) : IsPlainName (String.ofList t.text) :=
  ⟨by simpa using isName_of_shifts h, by simpa using hplain⟩

/-- The name of the associated type of a projection. -/
theorem isPlainName_shadowed : IsPlainName "Shadowed" := by
  refine ⟨?_, by decide⟩
  rw [IsName]
  decide

namespace Derives

theorem segments_ne_nil {segs : List Segment} (h : Derives .segments s segs s') : segs ≠ [] := by
  cases h <;> simp

/-- A path is read as far as it goes. -/
theorem kind_ne_sep {k : Phrase} {v : k.Value} (h : Derives k s v s') (hk : k = .segments) :
    s'.next.kind ≠ .pathSep := by
  induction h with
  | last _ _ _ hend => exact hend
  | more _ _ _ _ _ _ ih => exact ih rfl
  | _ => simp at hk

/-- A path is legible, and so is the path that a projection writes in its place. -/
theorem path_legible {segs : List Segment} (h : Derives .segments s segs s')
    (hsegs : Segmented segs z) (hz : Continues s' z) (rooted : Bool)
    (projected : List String) : ∃ segs',
      (Ty.path ⟨segs, rooted⟩).project projected = .path ⟨segs', rooted⟩ ∧ Segmented segs' z := by
  rw [Ty.project]
  split
  · rename_i ident hident
    obtain ⟨rfl, rfl⟩ : segs = [⟨ident, none⟩] ∧ rooted = false := by
      unfold Path.ident? at hident
      split at hident <;> simp_all
    split
    · refine ⟨[⟨ident, none⟩, ⟨"Shadowed", none⟩], rfl, ?_⟩
      have hshadowed : Segmented [⟨"Shadowed", none⟩] z :=
        .mk isPlainName_shadowed hz.ends.argsRead (.nil (hz.kind_ne_sep (h.kind_ne_sep rfl)))
      exact .mk hsegs.1 (Ends.of_sep (r := "Shadowed".toList ++ z)).argsRead (.cons hshadowed)
    · exact ⟨_, rfl, hsegs⟩
  · exact ⟨_, rfl, hsegs⟩

/-- An ABI that has been read is a string. -/
theorem isAbi {abi : Option String} (h : s.Abi abi s') : ∀ a ∈ abi, IsAbi a := by
  cases h with
  | absent => simp
  | bare => simp [IsAbi]
  | named _ hname =>
    have hof := fun z => of_literal (z := z) (g := [' ']) [.kwFn, .string] hname.next
      (by simp [hname.kind]) (by rw [hname.kind]; decide) (gap_of_isLayout isLayout_space)
    rw [hname.kind] at hof
    simpa [IsAbi] using .inr hof

theorem moreChars_eq {segs : List Segment} (h : segs ≠ []) :
    moreChars segs = Terminal.pathSep.spelling ++ segmentChars segs := by
  obtain ⟨seg, segs, rfl⟩ := List.exists_cons_of_ne_nil h
  rfl

/-- No output goes on with what stands in front of it: it starts with a space or is not there. -/
theorem breaks_output {output : Option Ty} (hz : Breaks z) :
    Breaks ((printOutput output).toList ++ z) := by
  cases output with
  | none => exact hz
  | some t => simp [printOutput, Breaks, isBreak]

theorem projectSegments_ne_nil {segs : List Segment} (h : segs ≠ []) :
    projectSegments projected segs ≠ [] := by
  obtain ⟨⟨name, args⟩, segs, rfl⟩ := List.exists_cons_of_ne_nil h
  simp [projectSegments]

theorem pluses_ne_nil {as : List k.Value} (h : Derives (.pluses k e) s as s') : as ≠ [] := by
  cases h <;> simp

/-- Behind an element of a list in brackets a separator is enough. -/
theorem ready_of_separated (hk : Bracketed k close e e') (hz : Separated s z) : k.Ready s z := by
  cases hk with
  | types => exact hz.continues
  | genericArgs | fnArgs => exact hz
  | lifetimes => trivial

/-- A subject may stand in front of its bounds. -/
theorem continues_colon {as : List k.Value} (projected : List String)
    (hcolon : s.Shifts .colon e t s₁) (has : Derives (.orNone k e') s₁ as s') (hz : Finishes s' z) :
    Continues s
      (boundChars (Text.join " + " ((as.map (k.project projected)).map k.print))
        as.isEmpty ++ z) := by
  have hq := hcolon.reaches.quiet (has.quiet_front projected hz.quiet hz.continues.ends.breaks)
  refine .colon_front ?_ ?_
  · cases as with
    | nil => simpa using hz.head_ne
    | cons a as => simp
  · cases as with
    | nil => simpa [print, project, Text.join] using hq
    | cons a as => simpa [print, project] using hq

end Derives
end Phrase
end ShadowImpl
