import ShadowImpl.Proofs.Appending
import ShadowImpl.Proofs.Extents

/-!
# Readings up to the end of a text

An item ends with a token and does not depend on what stands behind it: at most it looks whether
that is a semicolon. So a reading of an item that ends with its text can be followed, in lockstep,
through a text in which the item stands in front of something else.
-/

namespace ShadowImpl

namespace Reading

variable {α β γ : Type} {es : List Expectation} {ends : List Terminal} {certain : Bool}
    {s s' s₁ : Scan}
  {a : α}

/-! ## Readings that end with a token -/

/-- The reading ends right behind a token that it has taken, after which one of `es` is expected.
There it may still look at what stands next, as long as all of `ends` are the same to it. `certain`
says that such a token has just been taken. -/
inductive Closes (es : List Expectation) (ends : List Terminal) : Bool → Reading α → Prop where
  | done {a : α} : Closes es ends true (done a)
  | refuse {certain : Bool} : Closes es ends certain refuse
  | look {certain : Bool} {k : Terminal → Reading α} (h : ∀ t, Closes es ends false (k t)) :
      Closes es ends certain (look k)
  | glance {k : Terminal → Reading α} (heq : ∀ t ∈ ends, ∀ t' ∈ ends, k t = k t')
      (h : ∀ t, Closes es ends true (k t)) : Closes es ends true (look k)
  | take {certain : Bool} {e : Expectation} {k : String → Reading α}
      (h : ∀ w, Closes es ends (es.contains e) (k w)) : Closes es ends certain (take e k)
  | count {certain : Bool} {k : Nat → Reading α} (h : ∀ i, Closes es ends certain (k i)) :
      Closes es ends certain (count k)
  | text {certain : Bool} {i : Nat} {k : String → Reading α}
      (h : ∀ w, Closes es ends certain (k w)) : Closes es ends certain (text i k)

namespace Closes

theorem weaken {r : Reading α} (h : Closes es ends certain r) : Closes es ends true r := by
  induction h with
  | done => exact .done
  | refuse => exact .refuse
  | look h => exact .look h
  | glance heq h => exact .glance heq h
  | take h => exact .take h
  | count _ ih => exact .count ih
  | text _ ih => exact .text ih

/-- Whatever has been read before. -/
theorem after (r : Reading α) {f : α → Reading β} (hf : ∀ a, Closes es ends false (f a)) :
    Closes es ends certain (r >>= f) := by
  change Closes es ends certain (r.bind f)
  induction r generalizing certain with
  | done a =>
    cases certain with
    | false => exact hf a
    | true => exact (hf a).weaken
  | refuse => exact .refuse
  | look k ih => exact .look fun t => ih t
  | take e k ih => exact .take fun w => ih w
  | count k ih => exact .count fun i => ih i
  | text i k ih => exact .text fun w => ih w

theorem bind {r : Reading α} {f : α → Reading β} (h : Closes es ends certain r)
    (hf : ∀ a, Closes es ends true (f a)) : Closes es ends certain (r >>= f) := by
  change Closes es ends certain (r.bind f)
  induction h with
  | done => exact hf _
  | refuse => exact .refuse
  | look _ ih => exact .look ih
  | glance heq _ ih =>
    exact .glance (fun t ht t' ht' => congrArg (Reading.bind · f) (heq t ht t' ht')) ih
  | take _ ih => exact .take ih
  | count _ ih => exact .count ih
  | text _ ih => exact .text ih

theorem shift {e : Expectation} (he : e ∈ es) : Closes es ends certain (shift e) := by
  refine .take fun w => ?_
  rw [List.contains_iff_mem.mpr he]
  exact .done

theorem token {t : Terminal} {e : Expectation} (he : e ∈ es) :
    Closes es ends certain (token t e) := by
  rw [Reading.token]
  refine .after peek fun t' => ?_
  split
  · exact .shift he
  · exact .refuse

theorem textFrom (i : Nat) : Closes es ends true (textFrom i) :=
  .text fun _ => .done

theorem mark : Closes es ends true mark :=
  .count fun _ => .done

/-- A token that may stand at the end, other than `ends`. -/
theorem optional {t : Terminal} {e : Expectation} (he : e ∈ es) (ht : t ∉ ends) :
    Closes es ends true (optional t e) := by
  rw [Reading.optional]
  change Closes es ends true (Reading.look fun t' =>
    if t' = t then Reading.shift e >>= fun _ => pure true else pure false)
  refine .glance (fun t₁ ht₁ t₂ ht₂ => ?_) fun t' => ?_
  · rw [if_neg (ne_of_mem_of_not_mem ht₁ ht), if_neg (ne_of_mem_of_not_mem ht₂ ht)]
  · split
    · exact .bind (.shift he) fun _ => .done
    · exact .done

/-- What is expected at the end. -/
theorem expected_mem {r : Reading α} (h : Closes es ends certain r)
    (hs : certain = true → s.expected ∈ es) (hr : r.run s = .ok (a, s')) : s'.expected ∈ es := by
  induction h generalizing s with
  | done =>
    obtain ⟨-, rfl⟩ := Prod.mk.inj (Except.ok.inj hr)
    exact hs rfl
  | refuse => simp at hr
  | look _ ih => exact ih _ (by simp) hr
  | glance _ _ ih => exact ih _ hs hr
  | take _ ih =>
    simp only [run] at hr
    split at hr
    · exact ih _ (fun he => List.contains_iff_mem.mp he) hr
    · simp at hr
  | count _ ih => exact ih _ hs hr
  | text _ ih => exact ih _ hs hr

end Closes

/-! ## Up to the end -/

section

variable {T : Expectation → Terminal → Expectation → Prop} {N : Nat → Nat → Prop}
  {R : Nat → Expectation → α → β → Prop} {n : Nat} {e : Expectation} {κ : Option Terminal}
  {r : Reading α} {r' : Reading β} {Q : Scan → Scan → Prop}

/-- A reading is not done before it has taken a token, if one like it has to take one. -/
theorem Alike.lt_of_closes (h : Alike T N R n e κ r r') (hc : Closes es ends false r') {j : Nat}
    (hN : N s.taken.length j) (hr : r.run s = .ok (a, s')) : s.taken.length < s'.taken.length := by
  induction h with
  | done => cases hc
  | refuse => simp at hr
  | look _ ih =>
    cases hc with
    | look hc => exact ih _ (hc _) hr
  | last | take =>
    simp only [run] at hr
    split at hr
    · have hle := Scan.Later.le (later_of_run hr)
      rw [List.length_cons] at hle
      omega
    · simp at hr
  | count _ ih =>
    cases hc with
    | count hc => exact ih _ _ hN (hc _) hr
  | text _ _ ih =>
    cases hc with
    | text hc => exact ih _ (hc _) hr
  | anyText _ ih =>
    cases hc with
    | text hc => exact ih _ "" (hc _) hr

/-- Two scans that agree step by step up to `s₁`, where one of `ends` stands next in
either of them. -/
structure LockstepTo (T : Expectation → Terminal → Expectation → Prop) (N : Nat → Nat → Prop)
    (Q : Scan → Scan → Prop) (ends : List Terminal) (s₁ : Scan) : Prop where
  kind : ∀ {s s'}, Q s s' → s₁.Before s → s.next.kind = s'.next.kind
  take : ∀ {s s' t rest e}, Q s s' → s.next = .token t rest → T s.expected t.kind e →
    Scan.Reaches ⟨t :: s.taken, rest, e⟩ s₁ → ∃ t' rest', s'.next = .token t' rest' ∧
    t'.text = t.text ∧
      Q ⟨t :: s.taken, rest, e⟩ ⟨t' :: s'.taken, rest', e⟩
  count : ∀ {s s'}, Q s s' → N s.taken.length s'.taken.length
  text : ∀ {s s' i j}, Q s s' → N i j → s.textFrom i = s'.textFrom j
  ended : s₁.next.kind ∈ ends
  stopped : ∀ {s'}, Q s₁ s' → s'.next.kind ∈ ends

/-- A reading that is done in front of one of `ends` is done in front of any other of them. -/
theorem follow_to (h : Alike T N R n e κ r r') (hQ : LockstepTo T N Q ends s₁)
    (hc : Closes es ends certain r') (hs : Q s s') (he : s.expected = e)
    (hκ : ∀ t, κ = some t → s.next.kind = t) (hn : s.rest.length ≤ n) (hr : r.run s = .ok (a, s₁)) :
    ∃ b s₁' m, r'.run s' = .ok (b, s₁') ∧ R m s₁.expected a b ∧ Q s₁ s₁' := by
  induction h generalizing s s' certain with
  | done h =>
    obtain ⟨rfl, rfl⟩ := Prod.mk.inj (Except.ok.inj hr)
    exact ⟨_, s', _, rfl, he ▸ h, hs⟩
  | refuse => simp at hr
  | @look n e κ k k' hk ih =>
    cases Scan.reaches_of_run hr with
    | step hnext hreach =>
      have hkind := hQ.kind hs ⟨_, _, _, hnext, hreach⟩
      simp only [run, ← hkind]
      cases hc with
      | look hc => exact ih _ (hc _) hs he (fun t ht => Option.some.inj ht) hn hr
      | glance _ hc => exact ih _ (hc _) hs he (fun t ht => Option.some.inj ht) hn hr
    | refl =>
      -- nothing is left to be taken
      cases hc with
      | look hc =>
        have hlt := (hk _).lt_of_closes (hc _) (hQ.count hs) hr
        exact absurd hlt (Nat.lt_irrefl _)
      | glance heq hc =>
        simp only [run, heq _ (hQ.stopped hs) _ hQ.ended] at hr ⊢
        exact ih _ (hc _) hs he (fun t ht => Option.some.inj ht) hn hr
  | last =>
    have hrest : s.rest = [] := List.length_eq_zero_iff.mp (by omega)
    simp [run, Scan.next, hrest] at hr
  | @take n e e' t k k' ht _ ih =>
    cases hnext : s.next with
    | token u rest =>
      have hu : u.kind = t := by rw [← kind_of_token hnext, hκ t rfl]
      have hrest : rest.length ≤ n := by
        have hlen := (Scan.Takes.token hnext e').2
        have htext := List.length_pos_iff.mpr (Next.text_ne_nil_of_token hnext)
        rw [hlen] at hn
        simp only [Token.spelled_cons, Token.spelled_nil, List.append_nil, List.length_append] at hn
        omega
      simp only [run, hnext] at hr
      obtain ⟨u', rest', hnext', htext', hs'⟩ :=
        hQ.take (e := e') hs hnext (by rw [he, hu]; exact ht) (Scan.reaches_of_run hr)
      cases hc with
      | take hc =>
        simp only [run, hnext', htext']
        exact ih _ (hc _) hs' rfl (by simp) hrest hr
    | ended | unknown => simp [run, hnext] at hr
  | count _ ih =>
    cases hc with
    | count hc => exact ih _ _ (hQ.count hs) (hc _) hs he hκ hn hr
  | text hij _ ih =>
    cases hc with
    | text hc =>
      simp only [run, ← hQ.text hs hij]
      exact ih _ (hc _) hs he hκ hn hr
  | anyText _ ih =>
    cases hc with
    | text hc => exact ih _ _ (hc _) hs he hκ hn hr

end

end Reading

namespace Grammar

open Reading

/-! ## Items -/

/-- What can be expected behind an item. -/
def behindItem : List Expectation :=
  [Expected.anything, Expected.afterItem]

variable {certain : Bool} {ends : List Terminal} {attrs : List (Attribute Extent)} {first : Nat}

theorem closes_group (n : Nat) : Closes behindItem ends certain (group n) := by
  cases n with
  | zero => exact .refuse
  | succ n =>
    rw [group]
    refine .after peek fun t => ?_
    cases closer? t with
    | none => exact .refuse
    | some close =>
      exact .after (shift _) fun _ => .after (trees _ n) fun _ => .bind
        (.token (by simp [behindItem])) fun _ => .done

theorem closes_verbatimRest (kind : ItemKind) (n : Nat) :
    Closes behindItem ends certain (verbatimRest kind attrs first n) := by
  rw [verbatimRest]
  refine .after (trees _ n) fun _ => .bind (.token (by simp [behindItem])) fun _ => ?_
  exact .bind (.textFrom first) fun _ => .bind .mark fun _ => .done

theorem closes_macroCall (hends : .semi ∉ ends) (n : Nat) :
    Closes behindItem ends certain (macroCall attrs n) := by
  rw [macroCall]
  refine .after mark fun first => .after (macroPath n) fun _ => .bind (closes_group n) fun _ => ?_
  refine .bind (.optional (by simp [behindItem]) hends) fun _ => ?_
  exact .bind (.textFrom first) fun _ => .bind .mark fun _ => .done

theorem closes_methodBody (n : Nat) : Closes behindItem ends certain (methodBody n) := by
  rw [methodBody]
  refine .after peek fun t => ?_
  split
  · exact .shift (by simp [behindItem])
  · exact .after mark fun first => .bind (closes_group n) fun _ => .textFrom first
  · exact .refuse

theorem closes_method (n : Nat) : Closes behindItem ends certain (method attrs first n) := by
  rw [method]
  refine .after (qualifiers n) fun _ => .after (token _ _) fun _ => .after
    (token _ _) fun name => ?_
  refine .after (textFrom first) fun head => .after (params n) fun params => ?_
  refine .after (paramText n) fun text => .after (returnText n) fun ret => ?_
  refine .after (whereClause n) fun clause => .bind (closes_methodBody n) fun body => ?_
  exact .bind .mark fun _ => .done

theorem closes_constOrMethod (n : Nat) :
    Closes behindItem ends certain (constOrMethod attrs first n) := by
  rw [constOrMethod]
  refine .after (token _ _) fun _ => .after peek fun t => ?_
  split
  · exact .after (shift _) fun _ => closes_verbatimRest _ n
  · exact closes_method n

theorem closes_member (n : Nat) : Closes behindItem ends certain (member attrs first n) := by
  rw [member]
  refine .after peek fun t => ?_
  split
  · exact .after (shift _) fun _ => .after (token _ _) fun _ => closes_verbatimRest _ n
  · exact closes_constOrMethod n
  · exact closes_method n

/-- At the end of an item, all is the same but a semicolon. -/
theorem closes_item (hends : .semi ∉ ends) (n : Nat) :
    Closes behindItem ends certain (item attrs n) := by
  rw [item]
  refine .after peek fun t => ?_
  split
  · exact closes_macroCall hends n
  · refine .after mark fun first => .after (shift _) fun _ => .after peek fun t => ?_
    split
    · exact .after (group n) fun _ => closes_member n
    · exact closes_member n
  · exact .after mark fun first => closes_member n

end Grammar
end ShadowImpl
