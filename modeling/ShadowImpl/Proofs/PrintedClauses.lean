import ShadowImpl.Proofs.PrintedParams
import ShadowImpl.Proofs.Signatures

/-!
# Printed where clauses

A where clause as it is written in a generated block: each predicate on a line of its own with a
comma behind it, but for the last one in front of a semicolon.
-/

namespace ShadowImpl

open Filter Lexeme Recogniser Reading

variable {e : Expectation} {g y z z' : List Char} {ps : List Predicate} {lead indent : String}
  {clause : Option (List Predicate)}

namespace Grammar

/-- Where a clause may start. -/
def clausePlaces : List Expectation :=
  [Expected.afterType, Expected.anything]

theorem of_where (he : e ∈ clausePlaces) (hg : IsLayout g) (hz : Breaks z) :
    Next.of e (g ++ (Terminal.kwWhere.spelling ++ z)) =
      .token ⟨.kwWhere, g, Terminal.kwWhere.spelling⟩ z := by
  simp only [clausePlaces, List.mem_cons, List.not_mem_nil, or_false] at he
  rcases he with rfl | rfl
  · exact of_symbol (by decide) hg
  · exact of_keyword (by decide) (by decide) (by decide) hg hz

theorem finds_clause : ∀ e ∈ Expected.clausePredicate :: clausePlaces,
    finds e .lbrace = true ∧ finds e .semi = true := by
  decide

/-- The predicates on their lines, up to the end of the last one. -/
def linesOf (lead : String) (ps : List Predicate) : List Char :=
  (Text.join ",\n" (ps.map fun p => lead ++ p.print)).toList

theorem linesOf_cons (lead : String) (p q : Predicate) (ps : List Predicate) :
    linesOf lead (p :: q :: ps) = lead.toList ++
      (p.print.toList ++ (',' :: '\n' :: linesOf lead (q :: ps))) := by
  rw [linesOf, List.map_cons, List.map_cons, join_cons_cons, String.toList_append,
    List.append_assoc]
  rfl

/-- What goes on behind the predicate `p` in a list. -/
def listRest (p : Predicate) (n k : Nat) : Reading (List Predicate) := do
  if ← optional .comma Expected.clausePredicate then
    return p :: (← openList Expected.predicate.contains Expected.clausePredicate (predicate n) k)
  return [p]

/-- The lines of a clause are read if what stands behind the last predicate ends the list. -/
theorem lines_read {Q : Expectation → Prop} (hlead : IsLayout lead.toList)
    (hz : ∀ c ∈ z.head?, c ∈ [',', ';'])
    (hlast : ∀ p e₁, (∀ κ ∈ [Terminal.comma, .semi], finds e₁ κ = true) → ∃ e', Q e' ∧
      ∀ n k, 0 < k → (listRest p n k).Reads e₁ z [p] e' z')
    (hne : ps ≠ []) (hps : ∀ p ∈ ps, p.Legible) (hg : IsLayout g) : ∃ e', Q e' ∧ ∀ᶠ n in atTop,
      ∀ k > ps.length, (openList Expected.predicate.contains Expected.clausePredicate
        (predicate n) k).Reads Expected.clausePredicate (g ++ (linesOf lead ps ++ z)) ps e' z' := by
  induction ps generalizing g with
  | nil => exact absurd rfl hne
  | cons p ps ih =>
    have hlayout : IsLayout (g ++ lead.toList) := by
      simpa [IsLayout, or_imp, forall_and] using ⟨hg, hlead⟩
    cases ps with
    | nil =>
      have htext : g ++ (linesOf lead [p] ++ z) = (g ++ lead.toList) ++ (p.print.toList ++ z) := by
        simp [linesOf, Text.join]
      obtain ⟨hstarts, e₁, hseps, hreads⟩ := hps p (by simp) z hz Expected.clausePredicate
        (by simp [predicatePlaces]) _ hlayout
      obtain ⟨e', hQ, hrest⟩ := hlast p e₁ hseps
      refine ⟨e', hQ, ?_⟩
      rw [htext]
      filter_upwards [hreads] with n hn k hk
      obtain ⟨k, rfl⟩ : ∃ j, k = j + 1 := ⟨k - 1, by omega⟩
      rw [openList]
      refine .peek rfl ?_
      rw [if_pos hstarts]
      exact hn.bind (hrest n k (by simpa using hk))
    | cons q ps =>
      have htext : g ++ (linesOf lead (p :: q :: ps) ++ z) = (g ++ lead.toList) ++
          (p.print.toList ++
          (Terminal.comma.spelling ++ (['\n'] ++ (linesOf lead (q :: ps) ++ z)))) := by
        simp [linesOf_cons, Terminal.spelling]
      obtain ⟨hstarts, e₁, hseps, hreads⟩ := hps p (by simp)
        (Terminal.comma.spelling ++ (['\n'] ++ (linesOf lead (q :: ps) ++ z)))
          (by simp [Terminal.spelling])
        Expected.clausePredicate
        (by simp [predicatePlaces]) _ hlayout
      obtain ⟨e', hQ, hrest⟩ := ih (by simp) (fun p hp => hps p (by simp [hp])) (g := ['\n'])
        (by simp [IsLayout, isLayout])
      refine ⟨e', hQ, ?_⟩
      rw [htext]
      filter_upwards [hreads, hrest] with n hn hrest k hk
      obtain ⟨k, rfl⟩ : ∃ j, k = j + 1 := ⟨k - 1, by omega⟩
      rw [openList]
      refine .peek rfl ?_
      rw [if_pos hstarts]
      -- A comma is behind each predicate but the last one.
      refine hn.bind (.present (of_symbol_front (hseps .comma (by simp))) ?_)
      rw [if_pos rfl]
      exact .map (f := (p :: ·)) (hrest k (by simpa using hk))

/-- With a comma behind the last predicate. -/
theorem listRest_comma (p : Predicate)
    (hz : (Next.of Expected.clausePredicate z).kind ∉ Expected.predicate)
    (he : finds e .comma = true) : ∀ n k, 0 < k →
      (listRest p n k).Reads e (Terminal.comma.spelling ++ z) [p] Expected.clausePredicate z := by
  intro n k hk
  obtain ⟨k, rfl⟩ : ∃ j, k = j + 1 := ⟨k - 1, by omega⟩
  rw [listRest]
  refine .present (of_symbol_front he) ?_
  rw [if_pos rfl, openList]
  refine .map (f := (p :: ·)) (.peek rfl ?_)
  rw [if_neg (by simpa using hz)]
  exact .pure _

/-- In front of a semicolon. -/
theorem listRest_semi (p : Predicate) (he : finds e .semi = true) (n k : Nat) :
    (listRest p n k).Reads e (Terminal.semi.spelling ++ z) [p] e (Terminal.semi.spelling ++ z) := by
  rw [listRest]
  refine .absent ?_ ?_
  · rw [of_symbol_front he]
    simp [Next.kind]
  · rw [if_neg (by simp)]
    exact .pure _

theorem lines_toList (lead : String) (hne : ps ≠ []) :
    (Text.join "\n" (ps.map fun p => lead ++ p.print ++ ",")).toList =
      linesOf lead ps ++ [','] := by
  induction ps with
  | nil => exact absurd rfl hne
  | cons p ps ih =>
    cases ps with
    | nil => simp [linesOf, Text.join]
    | cons q ps =>
      rw [List.map_cons, List.map_cons, join_cons_cons]
      rw [List.map_cons] at ih
      rw [ih (by simp), linesOf_cons]
      simp

theorem printClause_toList (hne : ps ≠ []) (indent : String) :
    (printClause (some ps) indent).toList = ['\n'] ++ indent.toList ++
    (Terminal.kwWhere.spelling ++ ('\n' :: (linesOf (indent ++ indentation) ps ++
      [',', '\n']))) := by
  obtain ⟨p, ps, rfl⟩ := List.exists_cons_of_ne_nil hne
  have hprint : printClause (some (p :: ps)) indent = "\n" ++ indent ++ "where\n" ++
      Text.join "\n" ((p :: ps).map fun q => indent ++ indentation ++ q.print ++ ",") ++ "\n" := rfl
  have hlines := lines_toList (indent ++ indentation) hne
  simp only [hprint, String.toList_append, hlines]
  simp [Terminal.spelling]

/-- Without its last comma a clause ends with its last predicate. -/
theorem withoutLastComma_toList (hne : ps ≠ []) (hps : ∀ p ∈ ps, Text.Uncut p.print)
    (indent : String) : (withoutLastComma (printClause (some ps) indent)).toList =
      ['\n'] ++ indent.toList ++
      (Terminal.kwWhere.spelling ++ ('\n' :: linesOf (indent ++ indentation) ps)) := by
  obtain ⟨front, p, rfl⟩ : ∃ front p, ps = front ++ [p] :=
    ⟨_, _, (List.dropLast_append_getLast hne).symm⟩
  obtain ⟨w, hw, hprint⟩ := printClause_concat front p indent
  have hcut := withoutLastComma_append (hw.append (hps p (by simp)))
  rw [hprint, hcut]
  have htoList := printClause_toList hne indent
  rw [hprint, String.toList_append] at htoList
  refine (List.append_left_inj [',', '\n']).mp ?_
  simpa using htoList

/-- A clause that is none or has predicates. -/
def Clausal (clause : Option (List Predicate)) : Prop :=
  clause ≠ some [] ∧ ∀ p ∈ clause.getD [], p.Legible

theorem whereClause_none (h : (Next.of e z).kind ≠ .kwWhere) (n : Nat) :
    (whereClause n).Reads e z none e z := by
  rw [whereClause]
  refine .absent h ?_
  rw [if_neg (by simp)]
  exact .pure _

theorem whereClause_some (he : e ∈ clausePlaces) (hg : IsLayout g) {x : List Char}
    {e' : Expectation} {n : Nat}
    (h : ∀ k > ps.length, (openList Expected.predicate.contains Expected.clausePredicate
        (predicate n) k).Reads Expected.clausePredicate (['\n'] ++ x) ps e' z)
        (hn : ps.length < n) :
    (whereClause n).Reads e (g ++ (Terminal.kwWhere.spelling ++ '\n' :: x)) (some ps) e' z := by
  rw [whereClause]
  refine .present (of_where he hg (by simp [Breaks, isBreak])) ?_
  rw [if_pos rfl]
  exact .map (h n hn)

/-- In front of an opening brace. -/
theorem whereClause_reads_brace (hclause : Clausal clause) (he : e ∈ clausePlaces)
    (hindent : IsLayout indent.toList) :
    ∃ e' g', finds e' .lbrace = true ∧ IsLayout g' ∧ ∀ᶠ n in atTop,
      (whereClause n).Reads e ((if printClause clause indent = "" then [' '] else
        (printClause clause indent).toList ++ indent.toList) ++
          (Terminal.lbrace.spelling ++ z)) clause e' (g' ++ (Terminal.lbrace.spelling ++ z)) := by
  obtain ⟨hbrace, -⟩ := finds_clause e (List.mem_cons_of_mem _ he)
  cases clause with
  | none =>
    refine ⟨e, [' '], hbrace, isLayout_space, .of_forall fun n => ?_⟩
    rw [if_pos (show printClause none indent = "" from rfl)]
    refine whereClause_none ?_ n
    rw [of_symbol hbrace isLayout_space]
    simp [Next.kind]
  | some ps =>
    have hne : ps ≠ [] := fun h => hclause.1 (by rw [h])
    have htoList := printClause_toList hne indent
    have hempty : printClause (some ps) indent ≠ "" := by
      intro h
      rw [h] at htoList
      simp at htoList
    have hgap : IsLayout ('\n' :: indent.toList) := by
      simpa [IsLayout, isLayout] using hindent
    have hlead : IsLayout (indent ++ indentation).toList := by
      simpa [IsLayout, or_imp, forall_and, indentation, isLayout] using hindent
    -- The comma in front of the brace is the last one.
    have hstop : (Next.of Expected.clausePredicate (('\n' :: indent.toList) ++
        (Terminal.lbrace.spelling ++ z))).kind ∉ Expected.predicate := by
      rw [of_symbol (by decide) hgap]
      simp [Next.kind, Expected.predicate, Expected.type]
    obtain ⟨e', rfl, hlines⟩ := lines_read (Q := (· = Expected.clausePredicate)) hlead
      (z := Terminal.comma.spelling ++ (('\n' :: indent.toList) ++ (Terminal.lbrace.spelling ++ z)))
      (by simp [Terminal.spelling])
        (fun p e₁ hseps => ⟨_, rfl, listRest_comma p hstop (hseps .comma (by simp))⟩)
      hne hclause.2 (g := ['\n']) (by simp [IsLayout, isLayout])
    refine ⟨Expected.clausePredicate, '\n' :: indent.toList, by decide, hgap, ?_⟩
    rw [if_neg hempty, htoList]
    filter_upwards [hlines, eventually_gt_atTop ps.length] with n hn hlt
    have hread := whereClause_some he (g := ['\n'] ++ indent.toList) hgap hn hlt
    simpa [Terminal.spelling] using hread

/-- In front of a semicolon, without the last comma. -/
theorem whereClause_reads_semi (hclause : Clausal clause)
    (huncut : ∀ p ∈ clause.getD [], Text.Uncut p.print) (he : e ∈ clausePlaces)
    (hindent : IsLayout indent.toList) : ∃ e', finds e' .semi = true ∧
      ∀ᶠ n in atTop, (whereClause n).Reads e
        ((withoutLastComma (printClause clause indent)).toList ++ (Terminal.semi.spelling ++ z))
        clause e' (Terminal.semi.spelling ++ z) := by
  obtain ⟨-, hsemi⟩ := finds_clause e (List.mem_cons_of_mem _ he)
  cases clause with
  | none =>
    have hempty : withoutLastComma (printClause none indent) = "" := rfl
    refine ⟨e, hsemi, ?_⟩
    rw [hempty, String.toList_empty, List.nil_append]
    refine .of_forall fun n => whereClause_none ?_ n
    rw [of_symbol_front hsemi]
    simp [Next.kind]
  | some ps =>
    have hne : ps ≠ [] := fun h => hclause.1 (by rw [h])
    have hgap : IsLayout ('\n' :: indent.toList) := by
      simpa [IsLayout, isLayout] using hindent
    have hlead : IsLayout (indent ++ indentation).toList := by
      simpa [IsLayout, or_imp, forall_and, indentation, isLayout] using hindent
    obtain ⟨e', hsemi', hlines⟩ := lines_read (Q := fun e => finds e .semi = true) hlead
      (z := Terminal.semi.spelling ++ z) (by simp [Terminal.spelling])
      (fun p e₁ hseps =>
        ⟨e₁, hseps .semi (by simp), fun n k _ => listRest_semi p (hseps .semi (by simp)) n k⟩)
      hne hclause.2 (g := ['\n']) (by simp [IsLayout, isLayout])
    refine ⟨e', hsemi', ?_⟩
    rw [withoutLastComma_toList hne huncut]
    filter_upwards [hlines, eventually_gt_atTop ps.length] with n hn hlt
    have hread := whereClause_some he (g := ['\n'] ++ indent.toList) hgap hn hlt
    simpa [Terminal.spelling] using hread

end Grammar
end ShadowImpl
