import Mathlib.Data.List.Induction
import ShadowImpl.Proofs.Directives
import ShadowImpl.Proofs.Scopes

/-!
# What a directive is told

The arguments of a marker mention names and predicates. A directive keeps a name once, where it is
mentioned first, and a predicate as often as it comes. What it is told is the plain sequence of
both, without the rule, so that telling it more is to append.
-/

namespace ShadowImpl

attribute [ext] Directive

/-- Names and predicates in the order in which a directive is told them, with repeats. -/
@[ext] structure Mentions where
  names : List String := []
  literals : List Predicate := []

namespace Mentions

instance : Append Mentions where
  append m n := ⟨m.names ++ n.names, m.literals ++ n.literals⟩

@[simp] theorem names_append (m n : Mentions) : (m ++ n).names = m.names ++ n.names := rfl

@[simp] theorem literals_append (m n : Mentions) :
    (m ++ n).literals = m.literals ++ n.literals := rfl

theorem append_assoc (m n k : Mentions) : m ++ n ++ k = m ++ (n ++ k) := by
  ext <;> simp

@[simp] theorem append_empty (m : Mentions) : m ++ {} = m := by
  ext <;> simp

/-- Several parts, one after the other. -/
def join (parts : List Mentions) : Mentions :=
  ⟨parts.flatMap names, parts.flatMap literals⟩

/-- What lists of mentions come to together. -/
theorem join_append (parts parts' : List Mentions) :
    join (parts ++ parts') = join parts ++ join parts' := by
  ext <;> simp [join]

end Mentions

/-- What a meta item of a marker's arguments in `s` mentions. -/
def Meta.mentions (s : Source) (m : Meta Location) : Except Fault Mentions :=
  match Keyword.ofPath? m.path, m.form with
  | none, _ => .error ⟨.unknownDirective m.path, some m.place⟩
  | some .transformBounds, .list _ group => do
    return { names := ← Source.names { s with region := some (Directive.interior group) } }
  | some .addBounds, .list _ group => do
    return { literals := ← Source.predicates { s with region := some (Directive.interior group) } }
  | some _, _ => .error ⟨.directiveWithoutList m.path, some m.place⟩

/-- What the arguments of a marker mention. -/
def Source.mentions (s : Source) : Except Fault Mentions := do
  return .join (← (← s.metas).mapM (Meta.mentions s))

/-! ## Names that come again -/

section EraseDups

variable {name : String} {names seen : List String}

/-- A name that is mentioned once more changes nothing; a new one goes to the end. -/
theorem eraseDups_concat :
    (names ++ [name]).eraseDups =
      if name ∈ names then names.eraseDups else names.eraseDups ++ [name] := by
  rw [List.eraseDups_append]
  split <;> simp_all [List.removeAll, List.eraseDups_cons]

/-- A directive projects no parameter twice. -/
theorem nodup_eraseDups (names : List String) : names.eraseDups.Nodup := by
  induction names using List.reverseRecOn with
  | nil => exact List.nodup_nil
  | append_singleton names name ih =>
    rw [eraseDups_concat]
    split
    · exact ih
    · rename_i hnew
      rw [← List.mem_eraseDups] at hnew
      have hdisjoint : ∀ a ∈ names.eraseDups, ∀ b ∈ [name], a ≠ b := by
        rintro a ha b hb rfl
        exact hnew (List.mem_singleton.mp hb ▸ ha)
      exact List.nodup_append.mpr ⟨ih, by simp, hdisjoint⟩

/-- It makes no difference whether repeats have been taken out before. -/
theorem eraseDups_append_eraseDups (seen names : List String) :
    (seen ++ names.eraseDups).eraseDups = (seen ++ names).eraseDups := by
  induction names using List.reverseRecOn with
  | nil => rfl
  | append_singleton names name ih =>
    rw [eraseDups_concat, ← List.append_assoc, eraseDups_concat]
    split
    · -- The name has come in `names` before: it makes no difference on either side.
      rename_i hold
      rw [ih, if_pos (List.mem_append_right seen hold)]
    · rw [← List.append_assoc, eraseDups_concat, ih]
      simp only [List.mem_append, List.mem_eraseDups]

end EraseDups

/-! ## Directives by what they are told -/

namespace Directive

variable {m n : Mentions} {d : Directive}

/-- The directive that is told `m`. -/
def told (m : Mentions) : Directive :=
  of m.names m.literals

theorem projected_told (m : Mentions) : (told m).projected = m.names.eraseDups :=
  projected_of m.names m.literals

theorem literals_told (m : Mentions) : (told m).literals = m.literals :=
  literals_of m.names m.literals

/-- To project a parameter is to mention its name once more. -/
theorem project_told (name : String) : (told m).project name = told (m ++ { names := [name] }) := by
  ext1
  · rw [projected_told, Mentions.names_append, eraseDups_concat]
    by_cases h : name ∈ m.names <;> simp [project, projected_told, List.mem_eraseDups, h]
  · rw [literals_told]
    by_cases h : name ∈ m.names <;>
      simp [project, projected_told, literals_told, List.mem_eraseDups, h]

/-- To add a literal predicate is to mention it. -/
theorem addLiteral_told (p : Predicate) :
    (told m).addLiteral p = told (m ++ { literals := [p] }) := by
  ext1 <;> simp [addLiteral, projected_told, literals_told]

/-- A list of names is mentioned name by name. -/
theorem foldl_project_told (names : List String) :
    names.foldl project (told m) = told (m ++ { names }) := by
  induction names generalizing m with
  | nil => exact congrArg told m.append_empty.symm
  | cons name names ih =>
    rw [List.foldl_cons, project_told, ih, Mentions.append_assoc]
    rfl

theorem foldl_addLiteral_told (literals : List Predicate) :
    literals.foldl addLiteral (told m) = told (m ++ { literals }) := by
  ext1 <;> simp [literals_foldl_addLiteral, projected_told, literals_told]

/-- A directive that is merged into another one adds what it projects and its literals. -/
theorem merge_told_left : (told m).merge d = told (m ++ ⟨d.projected, d.literals⟩) := by
  rw [merge, foldl_project_told]
  ext1 <;> simp [projected_told, literals_told]

/-- Merging two directives is to tell the one what the other was told. -/
theorem merge_told : (told m).merge (told n) = told (m ++ n) := by
  rw [merge_told_left]
  ext1 <;> simp [projected_told, literals_told, eraseDups_append_eraseDups]

/-- A meta item adds what it mentions, or fails. -/
theorem follow_told (s : Source) (item : Meta Location) :
    follow s (told m) item = (item.mentions s).map fun n => told (m ++ n) := by
  rcases item with ⟨path, form, place⟩
  simp only [follow, followM, Engine.settle_plain, Source.namesM_plain, Source.predicatesM_plain,
    Meta.mentions]
  cases Keyword.ofPath? path with
  | none => rfl
  | some k =>
    cases form with
    | word | value => cases k <;> rfl
    | list args group =>
      cases k with
      | transformBounds =>
        dsimp only
        cases Source.names { s with region := some (interior group) } with
        | error f => rfl
        | ok names => exact congrArg Except.ok (foldl_project_told names)
      | addBounds =>
        dsimp only
        cases Source.predicates { s with region := some (interior group) } with
        | error f => rfl
        | ok literals => exact congrArg Except.ok (foldl_addLiteral_told literals)

/-- Meta items one behind the other add what they mention together. The first that fails makes the
whole fail. -/
theorem foldlM_follow_told (s : Source) (items : List (Meta Location)) :
    items.foldlM (follow s) (told m) =
      (items.mapM (Meta.mentions s)).map fun parts => told (m ++ .join parts) := by
  induction items generalizing m with
  | nil => exact congrArg Except.ok (congrArg told m.append_empty.symm)
  | cons item items ih =>
    rw [List.foldlM_cons, List.mapM_cons, follow_told]
    cases item.mentions s with
    | error f => rfl
    | ok n =>
      change items.foldlM (follow s) (told (m ++ n)) = _
      rw [ih, ok_bind]
      cases items.mapM (Meta.mentions s) with
      | error f => rfl
      | ok parts => exact congrArg (Except.ok ∘ told) (m.append_assoc n (.join parts))

/-- A marker's directive is told what its arguments mention. -/
theorem parse_eq (s : Source) : parse s = s.mentions.map told := by
  rw [parse, parseM, Source.metasM_plain, Source.mentions]
  cases s.metas with
  | error f => rfl
  | ok items =>
    change items.foldlM (follow s) (told {}) = _
    rw [foldlM_follow_told, ok_bind]
    cases items.mapM (Meta.mentions s) with
    | error f => rfl
    | ok parts => exact congrArg (Except.ok ∘ told) (by rfl)

end Directive
end ShadowImpl
