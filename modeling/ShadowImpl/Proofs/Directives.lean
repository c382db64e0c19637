import ShadowImpl.Proofs.Enclosed
import ShadowImpl.Proofs.Stages

/-!
# Arguments in place and on their own

The arguments of a marker are read where they stand, in a copy of the file that is blank
around them. Any two sources that hold the same arguments give the same directive, or fail
for the same cause.
-/

namespace ShadowImpl

variable {α : Type}

/-- Faults with the same cause, wherever they are. -/
def Fault.SameCause (f f' : Fault) : Prop :=
  f.cause = f'.cause

namespace Source

variable {s s' : Source} {v : List Char}

/-- The source reads `v`, wherever in its text that stands, and `v` was found between brackets. -/
def Reads (s : Source) (v : List Char) : Prop :=
  (∃ p q, s.Holds p v q) ∧ Tiled v

/-- Readings without places. -/
theorem parse_agree (hs : s.Reads v) (hs' : s'.Reads v) (goal : Goal) (start : Expectation)
    {reading : Nat → Reading α} (h : ∀ n, Grammar.Steady (Offset 0 0) 5 reading n) :
    Agree Fault.SameCause Eq (s.parse goal start reading fun _ => id)
      (s'.parse goal start reading fun _ => id) := by
  obtain ⟨⟨p, q, hold⟩, hv⟩ := hs
  obtain ⟨⟨p', q', hold'⟩, -⟩ := hs'
  cases hr : Reading.parse reading start v with
  | ok r =>
    rw [parse_eq_ok hold hv h hr, parse_eq_ok hold' hv h hr]
    exact .ok rfl
  | error scan =>
    obtain ⟨l, hl⟩ := parse_eq_error hold hv h hr
    obtain ⟨l', hl'⟩ := parse_eq_error hold' hv h hr
    rw [hl, hl']
    exact .error rfl

theorem names_agree (hs : s.Reads v) (hs' : s'.Reads v) :
    Agree Fault.SameCause Eq s.names s'.names :=
  parse_agree hs hs' .names Expected.name names_steady

theorem predicates_agree (hs : s.Reads v) (hs' : s'.Reads v) :
    Agree Fault.SameCause Eq s.predicates s'.predicates :=
  parse_agree hs hs' .predicates Expected.predicate (Grammar.predicates_steady rfl)

/-- Two forms whose arguments are the same, each in its source. -/
inductive SameForm (s s' : Source) : MetaForm Location → MetaForm Location → Prop where
  | word : SameForm s s' .word .word
  | value : SameForm s s' .value .value
  | list {args : String} {g g' : Location}
      (h : Reads { s with region := some (Directive.interior g) } args.toList)
      (h' : Reads { s' with region := some (Directive.interior g') } args.toList) :
      SameForm s s' (.list args g) (.list args g')

/-- Two meta items that are the same, each in its source. -/
structure SameMeta (s s' : Source) (m m' : Meta Location) : Prop where
  path : m.path = m'.path
  form : SameForm s s' m.form m'.form

end Source

theorem openList_sound {starts : Terminal → Bool} {after : Expectation} {k : Nat} (n : Nat)
    {s s' : Scan} {ms : List (Meta Extent)}
    (h : (Reading.openList starts after (Grammar.metaItem k) n).run s = .ok (ms, s')) :
    ∀ m ∈ ms, m.form.Sound s'.taken.reverse := by
  refine Reading.openList_induction (P := fun _ ms => ∀ m ∈ ms, m.form.Sound s'.taken.reverse)
    (fun _ => by simp) ?_ ?_ h
  · intro s m hm _
    simpa using Grammar.metaItem_sound hm
  · intro s s₁ t r m ms n hm _ _ hms ih
    obtain ⟨new, hnew⟩ := Reading.later_of_run hms
    simp only [List.mem_cons, forall_eq_or_imp]
    refine ⟨?_, ih⟩
    rw [hnew, List.reverse_cons, List.append_assoc]
    exact (Grammar.metaItem_sound hm).append _

/-- The lists of arguments that a parse has found are sound in its tokens. -/
theorem metas_sound {start : Expectation} {v : List Char} {r : Parsed (List (Meta Extent))}
    (h : Reading.parse (fun n => Reading.openList Expected.metaItem.contains Expected.metaItem
      (Grammar.metaItem n) n) start v = .ok r) :
    (∃ rest, v = Token.spelled r.tokens ++ rest) ∧ ∀ m ∈ r.value, m.form.Sound r.tokens := by
  rw [Reading.parse_eq] at h
  cases hrun : (Reading.whole _ (depth v)).run (.start start v) with
  | error => rw [hrun] at h; simp at h
  | ok p =>
    obtain ⟨ms, s⟩ := p
    rw [hrun] at h
    obtain rfl : ⟨ms, s.taken.reverse⟩ = r := by simpa using h
    refine ⟨⟨s.rest, Reading.text_of_run hrun⟩, ?_⟩
    rw [Reading.whole] at hrun
    obtain ⟨ms', s₁, hms, hrun⟩ := Reading.run_bind_eq_ok.mp hrun
    obtain ⟨⟨⟩, s₂, hfinish, hrun⟩ := Reading.run_bind_eq_ok.mp hrun
    obtain ⟨rfl, rfl⟩ : ms' = ms ∧ s₂ = s := by simpa using hrun
    obtain ⟨new, hnew⟩ := Reading.later_of_run hfinish
    intro m hm
    change m.form.Sound s₂.taken.reverse
    rw [hnew]
    exact (openList_sound _ hms m hm).append new

namespace Source

variable {s s' : Source} {v : List Char}

/-- The places of a sound meta item in a source lead to the text of its arguments. -/
theorem sameForm_of_sound {p q p' q' rest : List Char} {ts : List Token} {f : MetaForm Extent}
    (hs : s.text.toList = p ++ v ++ q) (hs' : s'.text.toList = p' ++ v ++ q')
    (hv : v = Token.spelled ts ++ rest) (hf : f.Sound ts) (file file' : String)
    (text text' : List Char) :
    SameForm s s' (f.map (Extent.location file text (Token.spans p.length ts).toArray))
      (f.map (Extent.location file' text' (Token.spans p'.length ts).toArray)) := by
  cases f with
  | word => exact .word
  | value => exact .value
  | list args g =>
    exact .list (holds_interior hs hv hf file text) (holds_interior hs' hv hf file' text')

theorem metas_agree (hs : s.Reads v) (hs' : s'.Reads v) :
    Agree Fault.SameCause (List.Forall₂ (SameMeta s s')) s.metas s'.metas := by
  obtain ⟨⟨p, q, hold⟩, hv⟩ := hs
  obtain ⟨⟨p', q', hold'⟩, -⟩ := hs'
  cases hr : Reading.parse (fun n => Reading.openList Expected.metaItem.contains Expected.metaItem
      (Grammar.metaItem n) n) Expected.metaItem v with
  | ok r =>
    obtain ⟨⟨rest, htext⟩, hsound⟩ := metas_sound hr
    have hmetas : s.metas = _ := parse_eq_ok hold hv metas_steady hr
    have hmetas' : s'.metas = _ := parse_eq_ok hold' hv metas_steady hr
    rw [hmetas, hmetas']
    refine .ok ?_
    rw [List.forall₂_map_left_iff, List.forall₂_map_right_iff, List.forall₂_same]
    exact fun m hm => ⟨rfl, sameForm_of_sound hold.text hold'.text htext (hsound m hm) _ _ _ _⟩
  | error scan =>
    obtain ⟨l, hl⟩ : ∃ l, s.metas = .error ⟨_, l⟩ := parse_eq_error hold hv metas_steady hr
    obtain ⟨l', hl'⟩ : ∃ l', s'.metas = .error ⟨_, l'⟩ := parse_eq_error hold' hv metas_steady hr
    rw [hl, hl']
    exact .error rfl

end Source

namespace Directive

variable {s s' : Source} {v : List Char}

theorem follow_agree {m m' : Meta Location} (h : Source.SameMeta s s' m m') (d : Directive) :
    Agree Fault.SameCause Eq (follow s d m) (follow s' d m') := by
  rcases m with ⟨path, form, place⟩
  rcases m' with ⟨path', form', place'⟩
  obtain rfl : path = path' := h.path
  simp only [follow, followM, Engine.settle_plain, Source.namesM_plain, Source.predicatesM_plain]
  cases Keyword.ofPath? path with
  | none => exact .error rfl
  | some k =>
    cases h.form with
    | word | value => cases k <;> exact .error rfl
    | list hr hr' =>
      cases k with
      | transformBounds =>
        exact (Source.names_agree hr hr').bind fun a b hab => .ok (by rw [hab])
      | addBounds =>
        exact (Source.predicates_agree hr hr').bind fun a b hab => .ok (by rw [hab])

/-- Sources that hold the same arguments give the same directive, or fail for the same cause. -/
theorem parse_agree (hs : s.Reads v) (hs' : s'.Reads v) :
    Agree Fault.SameCause Eq (parse s) (parse s') := by
  refine (Source.metas_agree hs hs').bind fun ms ms' h => ?_
  refine Agree.foldlM (S := Eq) (fun d d' m m' hd hm => ?_) h rfl
  subst hd
  exact follow_agree hm d

end Directive
end ShadowImpl
