import ShadowImpl.Proofs.Insertions

/-!
# The language of name lists

A list of names is told without the scanner: blanks that are passed over, commas and names, each
name as long as it can be. A text that is read so to its end spells a list if names and commas
take turns. In any other text there is one place up to which a list can still be meant, and
there it is refused.
-/

namespace ShadowImpl.NameList

open Recogniser

variable {w v x y z : List Char} {e : Expectation} {k : Nat}

/-! ## Pieces and blanks -/

/-- A letter or an underscore, then letters, digits and underscores. -/
def IsWord (w : List Char) : Prop :=
  ∃ c r, w = c :: r ∧ (c.isAlpha = true ∨ c = '_') ∧ ∀ d ∈ r, d.isAlphanum = true ∨ d = '_'

/-- A word, which may be marked as raw. -/
def IsIdent (w : List Char) : Prop :=
  IsWord w ∨ ∃ v, w = 'r' :: '#' :: v ∧ IsWord v

/-- A comment in front of `x`: one runs up to the end of the line, one up to the first end mark. -/
inductive Comment : List Char → List Char → Prop where
  | line {w x : List Char} (hw : '\n' ∉ w) (hx : ∀ c ∈ x.head?, c = '\n') :
      Comment ('/' :: '/' :: w) x
  | block {w x : List Char} (hw : ¬ ['*', '/'] <:+: w) : Comment ('/' :: '*' :: (w ++ ['*', '/'])) x

/-- What is passed over in front of `x`, one character of white space or one comment. -/
inductive Blank : List Char → List Char → Prop where
  | space {c : Char} {x : List Char} (hc : c ∈ [' ', '\t', '\x0c', '\r', '\n']) : Blank [c] x
  | comment {w x : List Char} (h : Comment w x) : Blank w x

/-- What a list of names is made of. -/
inductive Piece where
  | comma
  | name (w : List Char)

namespace Piece

/-- How a piece is written. -/
def text : Piece → List Char
  | comma => [',']
  | name w => w

/-- Whether a piece can stand in front of `x`. A name goes as far as it can. -/
def Stands (x : List Char) : Piece → Prop
  | comma => True
  | name w => IsIdent w ∧ ∀ v, IsIdent v → v <+: w ++ x → v.length ≤ w.length

/-- The class of a piece. -/
def kind : Piece → Terminal
  | comma => .comma
  | name _ => .ident

end Piece

/-- A text is read from left to right, down to `z`. -/
inductive Reads : List Char → List Piece → List Char → Prop where
  | stop (z : List Char) : Reads z [] z
  | blank {w x z : List Char} {ps : List Piece} (hw : Blank w x) (h : Reads x ps z) :
      Reads (w ++ x) ps z
  | piece {p : Piece} {x z : List Char} {ps : List Piece} (hp : p.Stands x) (h : Reads x ps z) :
    Reads (p.text ++ x) (p :: ps) z

/-- The pieces spell a list of names: there is a comma between each two, and there may be one
behind the last. -/
def IsList (ps : List Piece) (names : List (List Char)) : Prop :=
  ps = (names.map Piece.name).intersperse .comma ∨
    names ≠ [] ∧ ps = (names.map Piece.name).intersperse .comma ++ [.comma]

/-- Pieces that some list starts with. -/
def Viable (ps : List Piece) : Prop :=
  ∃ qs names, IsList (ps ++ qs) names

/-- A list can be meant up to `z` and no further: what stands there is neither blank nor a piece
that the list could go on with. -/
structure Stuck (x : List Char) (ps : List Piece) (z : List Char) : Prop where
  reads : Reads x ps z
  viable : Viable ps
  more : z ≠ []
  blank : ∀ w y, z = w ++ y → ¬ Blank w y
  piece : ∀ p y, z = Piece.text p ++ y → p.Stands y → ¬ Viable (ps ++ [p])

/-! ## Lists -/

section Lists

variable {ps qs : List Piece} {names : List (List Char)}

/-- A list is empty, a single name, or a name and a comma in front of a list. -/
theorem isList_iff :
    IsList ps names ↔ (ps = [] ∧ names = []) ∨ (∃ w, ps = [.name w] ∧ names = [w]) ∨
      ∃ w ps' names', ps = .name w :: .comma :: ps' ∧ names = w :: names' ∧ IsList ps' names' := by
  match names with
  | [] => simp [IsList]
  | [w] => simp [IsList]
  | w :: v :: names =>
    simp only [IsList, List.map_cons, List.intersperse, ne_eq, reduceCtorEq,
      not_false_eq_true, true_and, List.cons_append]
    grind

theorem isList_nil : IsList [] [] :=
  isList_iff.mpr (.inl ⟨rfl, rfl⟩)

theorem isList_name (w : List Char) : IsList [.name w] [w] :=
  isList_iff.mpr (.inr (.inl ⟨w, rfl, rfl⟩))

theorem IsList.cons (h : IsList ps names) (w : List Char) :
    IsList (.name w :: .comma :: ps) (w :: names) :=
  isList_iff.mpr (.inr (.inr ⟨w, ps, names, rfl, rfl, h⟩))

/-- The names of a list are the names among its pieces. -/
theorem IsList.unique {names' : List (List Char)} (h : IsList ps names) (h' : IsList ps names') :
    names = names' := by
  induction names generalizing ps names' with
  | nil =>
    obtain rfl : ps = [] := by simpa [IsList] using h
    rcases isList_iff.mp h' with ⟨-, rfl⟩ | ⟨v, h, -⟩ | ⟨v, qs, vs, h, -⟩
    · rfl
    · simp at h
    · simp at h
  | cons w names ih =>
    rcases isList_iff.mp h with ⟨-, h⟩ | ⟨w', rfl, h⟩ | ⟨w', qs, vs, rfl, h, hqs⟩
    · simp at h
    · rcases isList_iff.mp h' with ⟨h, -⟩ | ⟨v, hv, rfl⟩ | ⟨v, qs', vs', h, -⟩
      · simp at h
      · simp_all
      · simp at h
    · rcases isList_iff.mp h' with ⟨h, -⟩ | ⟨v, h, -⟩ | ⟨v, qs', vs', hv, rfl, hqs'⟩
      · simp at h
      · simp at h
      · obtain ⟨rfl, rfl⟩ := List.cons.inj h
        obtain ⟨rfl, rfl⟩ : w = v ∧ qs = qs' := by simpa using hv
        rw [ih hqs hqs']

theorem IsList.viable (h : IsList ps names) : Viable ps :=
  ⟨[], names, by rwa [List.append_nil]⟩

theorem Viable.of_append (h : Viable (ps ++ qs)) : Viable ps := by
  obtain ⟨rs, names, h⟩ := h
  exact ⟨qs ++ rs, names, by rwa [← List.append_assoc]⟩

theorem viable_cons_iff (w : List Char) : Viable (.name w :: .comma :: ps) ↔ Viable ps := by
  constructor
  · rintro ⟨qs, names, h⟩
    rcases isList_iff.mp h with ⟨h, -⟩ | ⟨v, h, -⟩ | ⟨v, ps', names', h, -, hlist⟩
    · simp at h
    · simp at h
    · obtain ⟨-, rfl⟩ : w = v ∧ ps ++ qs = ps' := by simpa using h
      exact ⟨qs, names', hlist⟩
  · rintro ⟨qs, names, h⟩
    exact ⟨qs, w :: names, h.cons w⟩

theorem not_viable_comma : ¬ Viable (.comma :: ps) := by
  rintro ⟨qs, names, h⟩
  rcases isList_iff.mp h with ⟨h, -⟩ | ⟨v, h, -⟩ | ⟨v, ps', names', h, -, -⟩ <;> simp at h

theorem not_viable_names (w v : List Char) : ¬ Viable (.name w :: .name v :: ps) := by
  rintro ⟨qs, names, h⟩
  rcases isList_iff.mp h with ⟨h, -⟩ | ⟨v, h, -⟩ | ⟨v, ps', names', h, -, -⟩ <;> simp at h

end Lists

/-! ## What the scanner takes -/

theorem isWordStart_iff {c : Char} : isWordStart c = true ↔ c.isAlpha = true ∨ c = '_' := by
  simp [isWordStart]

theorem isWordChar_iff {c : Char} : isWordChar c = true ↔ c.isAlphanum = true ∨ c = '_' := by
  simp [isWordChar]

/-- What is run over are the characters that satisfy `p`. -/
theorem take_run (p : Char → Bool) (x : List Char) : x.take (run p x) = x.takeWhile p :=
  List.prefix_iff_eq_take.mp (List.takeWhile_prefix p) |>.symm

theorem isWord_of_word (h : word x = some k) : IsWord (x.take k) := by
  cases x with
  | nil => simp [word] at h
  | cons c r =>
    simp only [word] at h
    split at h
    · rename_i hc
      obtain rfl := Option.some.inj h
      refine ⟨c, r.takeWhile isWordChar, ?_, isWordStart_iff.mp hc, fun d hd => ?_⟩
      · rw [Nat.add_comm, List.take_succ_cons, take_run]
      · exact isWordChar_iff.mp (List.mem_takeWhile_imp hd)
    · simp at h

/-- No word at the front is longer than the one that is taken. -/
theorem word_of_isWord (hv : IsWord v) (hx : v <+: x) : ∃ k, word x = some k ∧ v.length ≤ k := by
  obtain ⟨c, r, rfl, hc, hr⟩ := hv
  obtain ⟨z, rfl⟩ := hx
  refine ⟨1 + run isWordChar (r ++ z), by simp [word, isWordStart_iff.mpr hc], ?_⟩
  have hrun : run isWordChar r = r.length := by
    rw [run, List.takeWhile_eq_self_iff.mpr fun d hd => isWordChar_iff.mpr (hr d hd)]
  rw [run_append, if_pos hrun, List.length_cons]
  omega

theorem isIdent_of_ident (h : ident x = some k) : IsIdent (x.take k) := by
  rcases ident_forms x with ⟨r, n, rfl, hn⟩ | hx
  · rw [ident_raw hn] at h
    obtain rfl := Option.some.inj h
    exact .inr ⟨r.take n, by simp, isWord_of_word hn⟩
  · rw [ident_plain hx] at h
    exact .inl (isWord_of_word h)

/-- No name at the front is longer than the one that is taken. -/
theorem ident_of_isIdent (hv : IsIdent v) (hx : v <+: x) :
    ∃ k, ident x = some k ∧ v.length ≤ k := by
  rcases hv with hv | ⟨w, rfl, hw⟩
  · rcases ident_forms x with ⟨r, n, rfl, hn⟩ | hplain
    · -- the mark of a raw name ends a plain one
      obtain ⟨c, u, rfl, -, hu⟩ := hv
      obtain ⟨-, hu'⟩ := List.cons_prefix_cons.mp hx
      refine ⟨n + 2, ident_raw hn, ?_⟩
      cases u with
      | nil => simp
      | cons d u =>
        obtain ⟨rfl, -⟩ := List.cons_prefix_cons.mp hu'
        exact absurd (hu '#' (by simp)) (by decide)
    · rw [ident_plain hplain]
      exact word_of_isWord hv hx
  · obtain ⟨z, rfl⟩ := hx
    obtain ⟨n, hn, hle⟩ := word_of_isWord hw (List.prefix_append w z)
    exact ⟨n + 2, ident_raw hn, by simpa using hle⟩

theorem stands_name_iff : (Piece.name w).Stands x ↔ ident (w ++ x) = some w.length := by
  constructor
  · rintro ⟨hw, hmax⟩
    obtain ⟨k, hk, hle⟩ := ident_of_isIdent hw (List.prefix_append w x)
    have hlong := hmax _ (isIdent_of_ident hk) (List.take_prefix k _)
    rw [List.length_take_of_le (ident_bounds hk).2] at hlong
    rw [hk, Nat.le_antisymm hlong hle]
  · intro h
    refine ⟨by simpa using isIdent_of_ident h, fun v hv hx => ?_⟩
    obtain ⟨k, hk, hle⟩ := ident_of_isIdent hv hx
    rw [h] at hk
    exact Option.some.inj hk ▸ hle

theorem stands_iff {p : Piece} :
    p.Stands x ↔ p.kind.recognise (p.text ++ x) = some p.text.length := by
  cases p with
  | comma =>
    simp [Piece.Stands, Piece.kind, Piece.text, Terminal.recognise, exactly, Terminal.spelling]
  | name w => exact stands_name_iff

/-- The first mark of a text ends what is read up to it. -/
theorem through_iff :
    through ['*', '/'] (w ++ x) = some w.length ↔ ∃ v, w = v ++ ['*', '/'] ∧
    ¬ ['*', '/'] <:+: v := by
  constructor
  · intro h
    obtain ⟨v, hv⟩ := through_suffix h
    rw [List.take_left] at hv
    refine ⟨v, hv.symm, fun hinfix => ?_⟩
    obtain ⟨i, hi⟩ := Option.ne_none_iff_exists'.mp (mt through_eq_none_iff.mp (not_not.mpr hinfix))
    have hlong := through_grow hi (['*', '/'] ++ x)
    rw [← List.append_assoc, hv, h, Option.some.injEq] at hlong
    have := (through_le hi).2
    simp only [← hv, List.length_append, List.length_cons] at hlong
    omega
  · rintro ⟨v, rfl, hv⟩
    simpa using through_commentEnd hv x

theorem exists_tail {o r : List Char} {j : Nat} (h : w ++ x = o ++ r)
    (hlen : w.length = j + o.length) : ∃ v, w = o ++ v ∧ v ++ x = r ∧ v.length = j := by
  obtain ⟨v, rfl⟩ : o <+: w :=
    List.prefix_of_prefix_length_le ⟨r, h.symm⟩ (List.prefix_append w x) (by omega)
  refine ⟨v, rfl, by simpa using h, ?_⟩
  rw [List.length_append] at hlen
  omega

theorem comment_iff : Comment w x ↔ Recogniser.comment (w ++ x) = some w.length := by
  constructor
  · intro h
    cases h with
    | @line w _ hw hx =>
      have hrun : line (w ++ x) = w.length := by
        refine run_eq_of_append (fun c hc => ?_) ?_
        · simpa using fun h : c = '\n' => hw (h ▸ hc)
        · cases x with
          | nil => rfl
          | cons c x => simpa using hx c rfl
      simp only [List.cons_append, Recogniser.comment, hrun, List.length_cons, Option.some.injEq]
      omega
    | @block w _ hw =>
      have hthrough : blockRest (w ++ ['*', '/'] ++ x) = some (w ++ ['*', '/']).length :=
        through_iff.mpr ⟨w, rfl, hw⟩
      simp only [List.cons_append, Recogniser.comment, hthrough, Option.map_some, List.length_cons]
  · intro h
    rcases comment_eq_some.mp h with h | h
    · obtain ⟨r, j, hr, hj, hlen⟩ := after_eq_some.mp h
      -- A comment of one line ends in front of the first line feed.
      obtain ⟨w, rfl, rfl, rfl⟩ := exists_tail hr hlen
      have hlen : run (· ≠ '\n') (w ++ x) = w.length := Option.some.inj hj
      have hw : (w ++ x).takeWhile (· ≠ '\n') = w := by rw [← take_run, hlen, List.take_left]
      have hx : (w ++ x).dropWhile (· ≠ '\n') = x := by rw [← drop_run, hlen, List.drop_left]
      refine .line (fun hmem => ?_) fun c hc => ?_
      · rw [← hw] at hmem
        simpa using List.mem_takeWhile_imp hmem
      · have hhead := List.head?_dropWhile_not (· ≠ '\n') (w ++ x)
        rw [hx, Option.mem_def.mp hc] at hhead
        simpa using hhead
    · obtain ⟨r, j, hr, hj, hlen⟩ := after_eq_some.mp h
      obtain ⟨w, rfl, rfl, rfl⟩ := exists_tail hr hlen
      obtain ⟨v, rfl, hv⟩ := through_iff.mp hj
      exact .block hv

theorem isLayout_iff {c : Char} : isLayout c = true ↔ c ∈ [' ', '\t', '\x0c', '\r', '\n'] := by
  simp [isLayout, or_assoc]

/-! ## Reading from left to right -/

section Reads

variable {p q : Piece} {ps qs : List Piece}

/-! Blanks, commas and names start with different characters. -/

theorem Comment.head (h : Comment w x) : w.head? = some '/' := by
  cases h <;> rfl

theorem Blank.head (h : Blank w x) : ∃ c ∈ w.head?, c ∈ [' ', '\t', '\x0c', '\r', '\n', '/'] := by
  cases h with
  | @space c _ hc => exact ⟨c, rfl, List.mem_append_left ['/'] hc⟩
  | comment h => exact ⟨'/', h.head, by decide⟩

theorem IsIdent.head (h : IsIdent w) : ∃ c ∈ w.head?, isWordStart c = true := by
  rcases h with ⟨c, r, rfl, hc, -⟩ | ⟨v, rfl, -⟩
  · exact ⟨c, rfl, isWordStart_iff.mpr hc⟩
  · exact ⟨'r', rfl, by decide⟩

theorem Piece.Stands.head (h : p.Stands x) :
    ∃ c ∈ p.text.head?, c = ',' ∨ isWordStart c = true := by
  cases p with
  | comma => exact ⟨',', rfl, .inl rfl⟩
  | name w =>
    obtain ⟨c, hcw, hc⟩ := h.1.head
    exact ⟨c, hcw, .inr hc⟩

theorem Blank.ne_nil (h : Blank w x) : w ≠ [] := by
  rintro rfl
  obtain ⟨c, hc, -⟩ := h.head
  simp at hc

theorem Piece.Stands.ne_nil (h : p.Stands x) : p.text ≠ [] := by
  intro heq
  obtain ⟨c, hc, -⟩ := h.head
  simp [heq] at hc

theorem head_unique {c d : Char} (heq : w ++ x = v ++ y) (hc : c ∈ w.head?) (hd : d ∈ v.head?) :
    c = d := by
  have h := congrArg List.head? heq
  rw [List.head?_append, List.head?_append, Option.mem_def.mp hc, Option.mem_def.mp hd] at h
  exact Option.some.inj h

theorem Blank.not_stands (h : Blank w x) (hp : p.Stands y) : w ++ x ≠ p.text ++ y := by
  intro heq
  obtain ⟨c, hcw, hc⟩ := h.head
  obtain ⟨d, hdp, hd⟩ := hp.head
  obtain rfl := head_unique heq hcw hdp
  obtain ⟨hcomma, hstart⟩ : c ≠ ',' ∧ isWordStart c = false := by
    simp only [List.mem_cons, List.not_mem_nil, or_false] at hc
    rcases hc with rfl | rfl | rfl | rfl | rfl | rfl <;> decide
  rcases hd with hd | hd
  · exact hcomma hd
  · rw [hstart] at hd
    exact Bool.false_ne_true hd

theorem Blank.unique (h : Blank w x) (h' : Blank v y) (heq : w ++ x = v ++ y) : w = v ∧ x = y := by
  cases h with
  | space hc =>
    cases h' with
    | space hd => simpa using heq
    | comment h' =>
      obtain rfl := head_unique heq rfl h'.head
      exact absurd hc (by decide)
  | comment h =>
    cases h' with
    | space hd =>
      obtain rfl := head_unique heq h.head rfl
      exact absurd hd (by decide)
    | comment h' =>
      rw [comment_iff] at h h'
      rw [heq, h'] at h
      exact List.append_inj heq (Option.some.inj h).symm

theorem Piece.Stands.unique (h : p.Stands x) (h' : q.Stands y) (heq : p.text ++ x = q.text ++ y) :
    p = q ∧ x = y := by
  match p, q with
  | comma, comma => simpa [text] using heq
  | comma, name v =>
    obtain ⟨d, hdv, hd⟩ := h'.1.head
    obtain rfl := head_unique heq rfl hdv
    exact absurd hd (by decide)
  | name w, comma =>
    obtain ⟨c, hcw, hc⟩ := h.1.head
    obtain rfl := head_unique heq hcw rfl
    exact absurd hc (by decide)
  | name w, name v =>
    rw [stands_name_iff] at h h'
    change w ++ x = v ++ y at heq
    rw [heq, h'] at h
    obtain ⟨rfl, rfl⟩ := List.append_inj heq (Option.some.inj h).symm
    exact ⟨rfl, rfl⟩

theorem Reads.append (h : Reads x ps y) (h' : Reads y qs z) : Reads x (ps ++ qs) z := by
  induction h with
  | stop => exact h'
  | blank hw _ ih => exact .blank hw (ih h')
  | piece hp _ ih => exact .piece hp (ih h')

/-- The first thing that is read. -/
theorem Reads.cases_first (h : Reads x ps z) : (ps = [] ∧ x = z) ∨
    (∃ w y, x = w ++ y ∧ Blank w y ∧ Reads y ps z) ∨
      ∃ p y qs, x = p.text ++ y ∧ ps = p :: qs ∧ p.Stands y ∧ Reads y qs z := by
  cases h with
  | stop => exact .inl ⟨rfl, rfl⟩
  | blank hw h => exact .inr (.inl ⟨_, _, rfl, hw, h⟩)
  | piece hp h => exact .inr (.inr ⟨_, _, _, rfl, rfl, hp, h⟩)

theorem Reads.suffix (h : Reads x ps z) : z <:+ x := by
  induction h with
  | stop => exact List.suffix_rfl
  | blank _ _ ih => exact ih.trans (List.suffix_append _ _)
  | piece _ _ ih => exact ih.trans (List.suffix_append _ _)

/-- There is one way to read a text: of two readings one goes on where the other stops. -/
theorem Reads.linear (h : Reads x ps y) (h' : Reads x qs z) :
    (∃ rs, qs = ps ++ rs ∧ Reads y rs z) ∨ ∃ rs, ps = qs ++ rs ∧ Reads z rs y := by
  -- By induction on the one reading: the other stops or begins in the same way.
  induction h generalizing qs with
  | stop => exact .inl ⟨qs, rfl, h'⟩
  | @blank w x _ _ hw h ih =>
    rcases h'.cases_first with ⟨rfl, rfl⟩ | ⟨v, x', hx, hv, h'⟩ | ⟨p, x', qs', hx, -, hp, -⟩
    · exact .inr ⟨_, rfl, .blank hw h⟩
    · obtain ⟨rfl, rfl⟩ := hw.unique hv hx
      exact ih h'
    · exact absurd hx (hw.not_stands hp)
  | @piece p x _ _ hp h ih =>
    rcases h'.cases_first with ⟨rfl, rfl⟩ | ⟨v, x', hx, hv, -⟩ | ⟨q, x', qs', hx, rfl, hq, h'⟩
    · exact .inr ⟨_, rfl, .piece hp h⟩
    · exact absurd hx.symm (hv.not_stands hp)
    · obtain ⟨rfl, rfl⟩ := hp.unique hq hx
      exact (ih h').imp (fun ⟨rs, heq, hrs⟩ => ⟨rs, by simp [heq], hrs⟩)
        fun ⟨rs, heq, hrs⟩ => ⟨rs, by simp [heq], hrs⟩

theorem Reads.nil_left (h : Reads [] ps z) : ps = [] ∧ z = [] := by
  rcases h.cases_first with ⟨rfl, rfl⟩ | ⟨w, y, hx, hw, -⟩ | ⟨p, y, qs, hx, -, hp, -⟩
  · exact ⟨rfl, rfl⟩
  · exact absurd (List.append_eq_nil_iff.mp hx.symm).1 hw.ne_nil
  · exact absurd (List.append_eq_nil_iff.mp hx.symm).1 hp.ne_nil

/-- No reading that a list can be meant with goes past the place where one is stuck. -/
theorem Stuck.furthest (h : Stuck x ps y) (h' : Reads x qs z) (hqs : Viable qs) :
    ∃ rs, ps = qs ++ rs ∧ Reads z rs y := by
  -- If it did, it would pass over a blank or a piece that stands at `y`.
  rcases h.reads.linear h' with ⟨rs, rfl, hrs⟩ | hrs
  · rcases hrs.cases_first with ⟨rfl, rfl⟩ | ⟨w, u, hy, hw, -⟩ | ⟨p, u, rs, hy, rfl, hp, -⟩
    · exact ⟨[], by simp, .stop _⟩
    · exact absurd hw (h.blank w u hy)
    · rw [List.append_cons] at hqs
      exact absurd hqs.of_append (h.piece p u hy hp)
  · exact hrs

/-- There is one place where a text is stuck, -/
theorem Stuck.unique (h : Stuck x ps y) (h' : Stuck x qs z) : y = z := by
  obtain ⟨_, -, hzy⟩ := h.furthest h'.reads h'.viable
  obtain ⟨_, -, hyz⟩ := h'.furthest h.reads h.viable
  exact List.IsSuffix.eq_of_length_le hzy.suffix hyz.suffix.length_le

/-- and none where it is read to the end. -/
theorem Stuck.not_reads (h : Stuck x ps y) (hqs : Viable qs) : ¬ Reads x qs [] := by
  intro h'
  obtain ⟨_, -, hrest⟩ := h.furthest h' hqs
  exact h.more hrest.nil_left.2

theorem Stuck.append (h : Reads x [.name w, .comma] y) (hstuck : Stuck y ps z) :
    Stuck x (.name w :: .comma :: ps) z where
  reads := h.append hstuck.reads
  viable := (viable_cons_iff w).mpr hstuck.viable
  more := hstuck.more
  blank := hstuck.blank
  piece p u hz hp hviable := hstuck.piece p u hz hp ((viable_cons_iff w).mp hviable)

end Reads

/-! ## The scanner -/

section Scanner

variable {κ : Terminal} {n : Next} {ps : List Piece}

theorem Reads.layout (hw : ∀ c ∈ w, isLayout c = true) (h : Reads x ps z) :
    Reads (w ++ x) ps z := by
  induction w with
  | nil => exact h
  | cons c w ih =>
    rw [List.forall_mem_cons] at hw
    exact .blank (w := [c]) (.space (isLayout_iff.mp hw.1)) (ih hw.2)

/-- What the scanner takes for no token is blank. -/
theorem Reads.skip {l : Lexeme} (h : Lexeme.first e x = some (l, k)) (hl : l.skipped = true)
    (hreads : Reads (x.drop k) ps z) : Reads x ps z := by
  rw [← List.take_append_drop k x]
  obtain ⟨-, hr⟩ := Lexeme.first_eq_some h
  have hlen : (x.take k).length = k := List.length_take_of_le (Lexeme.first_bounds h).2
  match l with
  | .layout =>
    refine .layout (fun c hc => ?_) hreads
    change some1 isLayout x = some k at hr
    obtain rfl : run isLayout x = k := by
      unfold some1 at hr
      split at hr
      · simp at hr
      · exact Option.some.inj hr
    rw [take_run] at hc
    exact List.mem_takeWhile_imp hc
  | .comment =>
    refine .blank (.comment (comment_iff.mpr ?_)) hreads
    rw [List.take_append_drop, hlen]
    exact hr

/-- A place where nothing that is expected can be read. -/
structure Refused (κ : Terminal) (z : List Char) : Prop where
  more : z ≠ []
  blank : ∀ w y, z = w ++ y → ¬ Blank w y
  piece : ∀ p y, z = Piece.text p ++ y → p.Stands y → p.kind ≠ κ

/-- What stands next where names or commas are expected. -/
inductive Meets (κ : Terminal) (x : List Char) : Next → Prop where
  | ended {g : List Char} (h : Reads x [] []) : Meets κ x (.ended g)
  | token {p : Piece} {g y : List Char} (h : Reads x [p] y) (hp : p.kind = κ) :
    Meets κ x (.token ⟨κ, g, p.text⟩ y)
  | unknown {g y : List Char} (h : Reads x [] y) (hy : Refused κ y) : Meets κ x (.unknown g y)

theorem refused_of_first (hκ : κ = .ident ∨ κ = .comma) (hx : x ≠ [])
    (h : Lexeme.first [κ] x = none) : Refused κ x := by
  have hnone : ∀ l ∈ [Lexeme.layout, .comment, .terminal κ], l.recognise x = none := by
    intro l hl
    have hmem : l ∈ Lexeme.order ∧ l.tried [κ] = true := by
      rcases hκ with rfl | rfl <;> revert l <;> decide
    simpa [hmem.2] using List.findSome?_eq_none_iff.mp h l hmem.1
  refine ⟨hx, ?_, ?_⟩
  · rintro w y rfl hw
    cases hw with
    | @space c _ hc =>
      have hlayout := hnone .layout (by simp)
      simp [Lexeme.recognise, Recogniser.layout, some1, run, isLayout_iff.mpr hc] at hlayout
    | comment hw =>
      exact Option.some_ne_none _ ((comment_iff.mp hw).symm.trans (hnone .comment (by simp)))
  · rintro p y rfl hp rfl
    exact Option.some_ne_none _ ((stands_iff.mp hp).symm.trans (hnone (.terminal p.kind) (by simp)))

/-- A token is a piece. -/
theorem reads_of_recognise (hκ : κ = .ident ∨ κ = .comma) (h : κ.recognise x = some k)
    (hk : k ≤ x.length) : ∃ p, Piece.kind p = κ ∧ p.text = x.take k ∧ Reads x [p] (x.drop k) := by
  obtain ⟨p, hp, htext⟩ : ∃ p, Piece.kind p = κ ∧ p.text = x.take k := by
    rcases hκ with rfl | rfl
    · exact ⟨.name (x.take k), rfl, rfl⟩
    · obtain ⟨⟨y, rfl⟩, rfl⟩ := exactly_eq_some (w := [',']) h
      exact ⟨.comma, rfl, rfl⟩
  refine ⟨p, hp, htext, ?_⟩
  have hstands : p.Stands (x.drop k) := by
    rw [stands_iff, hp, htext, List.take_append_drop, List.length_take_of_le hk, h]
  have hreads := Reads.piece hstands (.stop (x.drop k))
  rwa [htext, List.take_append_drop] at hreads

theorem Meets.prepend (h : Meets κ y n) (hreads : ∀ ps z, Reads y ps z → Reads x ps z)
    (g : List Char) : Meets κ x (n.prepend g) := by
  cases h with
  | ended h => exact .ended (hreads _ _ h)
  | token h hp => exact .token (hreads _ _ h) hp
  | unknown h hy => exact .unknown (hreads _ _ h) hy

theorem Meets.exists_token (h : Meets κ x n) (hκ : κ = .ident ∨ κ = .comma) (hn : n.kind = κ) :
    ∃ p g y, n = .token ⟨κ, g, p.text⟩ y ∧ p.kind = κ ∧ Reads x [p] y := by
  cases h with
  | token h hp => exact ⟨_, _, _, rfl, hp, h⟩
  | ended | unknown => rcases hκ with rfl | rfl <;> simp [Next.kind] at hn

theorem meets_of_found (hκ : κ = .ident ∨ κ = .comma) (h : Next.Found [κ] x n) : Meets κ x n := by
  induction h with
  | ended => exact .ended (.stop [])
  | unknown hs h => exact .unknown (.stop _) (refused_of_first hκ hs h)
  | @token s t k h =>
    obtain ⟨ht, hr⟩ := Lexeme.first_eq_some h
    obtain rfl : t = κ := by simpa [Lexeme.tried] using (Bool.and_eq_true_iff.mp ht).1
    have hsettle : t.settle [t] (s.take k) = t := by rcases hκ with rfl | rfl <;> rfl
    obtain ⟨p, hp, htext, hreads⟩ := reads_of_recognise hκ hr (Lexeme.first_bounds h).2
    rw [hsettle, ← htext]
    exact .token hreads hp
  | skip h hl _ ih => exact ih.prepend (fun _ _ => Reads.skip h hl) _

theorem meets (hκ : κ = .ident ∨ κ = .comma) (x : List Char) : Meets κ x (Next.of [κ] x) :=
  meets_of_found hκ (Next.found [κ] x)

end Scanner

/-! ## The reading of a list -/

section Reading

open Reading

variable {s : Scan} {ps : List Piece} {g : List Char}

theorem Reads.length_le (h : Reads x ps z) : z.length + ps.length ≤ x.length := by
  induction h with
  | stop => simp
  | blank _ _ ih => simp only [List.length_append]; omega
  | piece hp _ ih =>
    have := List.length_pos_iff.mpr hp.ne_nil
    simp only [List.length_append, List.length_cons]
    omega

/-- What is read of a text has to be all of it. -/
theorem parse_of_run {α : Type} (reading : Nat → Reading α) (start : Expectation) {a : α}
    (h : (reading (depth x)).run (.start start x) = .ok (a, s)) : Reading.parse reading start x =
      if s.next.kind = .eof then .ok ⟨a, s.taken.reverse⟩ else .error s := by
  have hpeek : peek.run s = .ok (s.next.kind, s) := rfl
  rw [Reading.parse, whole, run_bind_of_ok h]
  by_cases heof : s.next.kind = .eof <;> simp [finish, run_bind, hpeek, heof, parsed]

/-- How the reading of a list ends in a scan: the text is over, or the list is stuck. -/
inductive Ends (x : List Char) (ps : List Piece) (s : Scan) : Prop where
  | whole {g : List Char} (h : s.next = .ended g) (hreads : Reads x ps [])
  | stuck {g z : List Char} (h : s.next = .unknown g z) (hstuck : Stuck x ps z)

theorem Ends.append (h : Reads x [.name w, .comma] y) (hends : Ends y ps s) :
    Ends x (.name w :: .comma :: ps) s := by
  cases hends with
  | whole hnext hreads => exact .whole hnext (h.append hreads)
  | stuck hnext hstuck => exact .stuck hnext (hstuck.append h)

theorem ends_of_meets {κ : Terminal} (h : Meets κ y s.next) (hκ : s.next.kind ≠ κ)
    (hreads : Reads x ps y) (hviable : Viable ps)
    (hpiece : ∀ p : Piece, p.kind ≠ κ → ¬ Viable (ps ++ [p])) : Ends x ps s := by
  generalize hn : s.next = n at h hκ
  cases h with
  | ended h => exact .whole hn (by simpa using hreads.append h)
  | token => exact absurd rfl hκ
  | unknown h hy =>
    have hall := hreads.append h
    rw [List.append_nil] at hall
    exact .stuck hn ⟨hall, hviable, hy.more, hy.blank, fun p u hz hp => hpiece p
      (hy.piece p u hz hp)⟩

theorem openList_ends {n : Nat} (hn : x.length < n) (taken : List Token) : ∃ names ps s,
    (openList (· = .ident) Expected.name (token .ident [.comma]) n).run ⟨taken, x, [.ident]⟩ =
      .ok (names, s) ∧ IsList ps (names.map String.toList) ∧ Ends x ps s := by
  induction n generalizing x taken with
  | zero => omega
  | succ n ih =>
    have hmeets := meets (.inl rfl) x (κ := .ident)
    rw [openList, run_peek_bind]
    by_cases hident : (Scan.mk taken x [.ident]).next.kind = .ident
    · obtain ⟨p, g, y, hnext, hp, hname⟩ := hmeets.exists_token (.inl rfl) hident
      obtain ⟨w, rfl⟩ : ∃ w, p = .name w := by cases p <;> simp_all [Piece.kind]
      have hmeets := meets (.inr rfl) y (κ := .comma)
      by_cases hcomma : (Next.of [.comma] y).kind = .comma
      · -- A list stands behind the comma, and less of the text.
        obtain ⟨q, g', z, hnext', hq, hcommaReads⟩ := hmeets.exists_token (.inr rfl) hcomma
        obtain rfl : q = .comma := by cases q <;> simp_all [Piece.kind]
        have hreads := hname.append hcommaReads
        have hlen := hreads.length_le
        simp only [List.length_append, List.length_cons, List.length_nil] at hlen
        obtain ⟨names, ps, s, hrun, hlist, hends⟩ :=
          ih (x := z) (by omega) (⟨.comma, g', [',']⟩ :: ⟨.ident, g, w⟩ :: taken)
        refine ⟨String.ofList w :: names, _, s, ?_, ?_, .append hreads hends⟩
        · rw [if_pos (decide_eq_true hident)]
          exact run_token_bind_eq_ok.mpr ⟨_, _, hnext, rfl, run_optional_bind_eq_ok.mpr
            (.inl ⟨_, _, hnext', rfl, run_bind_eq_ok.mpr ⟨_, _, hrun, rfl⟩⟩)⟩
        · simpa using hlist.cons w
      · -- The list ends in this name; if there is more, it is no comma, and no name can
        -- follow a name.
        refine ⟨[String.ofList w], [.name w], ⟨⟨.ident, g, w⟩ :: taken, y, [.comma]⟩, ?_, ?_, ?_⟩
        · rw [if_pos (decide_eq_true hident)]
          exact run_token_bind_eq_ok.mpr
            ⟨_, _, hnext, rfl, run_optional_bind_eq_ok.mpr (.inr ⟨hcomma, rfl⟩)⟩
        · simpa using isList_name w
        · refine ends_of_meets hmeets hcomma hname (isList_name w).viable fun p hp => ?_
          cases p with
          | comma => exact absurd rfl hp
          | name v => exact not_viable_names w v
    · -- No list starts with a comma.
      refine ⟨[], [], ⟨taken, x, [.ident]⟩, ?_, isList_nil, ?_⟩
      · rw [if_neg (by simpa using hident)]
        rfl
      · refine ends_of_meets hmeets hident (.stop x) isList_nil.viable fun p hp => ?_
        cases p with
        | comma => exact not_viable_comma
        | name w => exact absurd rfl hp

end Reading

/-- A source either spells a list of names or is refused where it is stuck. -/
theorem names_outcome (s : Source) :
    (∃ names ps, s.names = .ok names ∧ Reads s.chars ps [] ∧ IsList ps (names.map String.toList)) ∨
      ∃ complaint ps z, Stuck s.chars ps z ∧ s.names = .error ⟨.unreadable .names complaint,
        some (.point s.file s.chars ↑(s.chars.length - z.length))⟩ := by
  have hdepth : s.chars.length < depth s.chars := by
    rw [depth]
    omega
  obtain ⟨names, ps, scan, hrun, hlist, hends⟩ := openList_ends hdepth []
  have hparse := parse_of_run (fun n => Reading.openList (· = .ident) Expected.name
    (Reading.token .ident [.comma]) n) Expected.name hrun
  cases hends with
  | whole hnext hreads =>
    rw [hnext] at hparse
    refine .inl ⟨names, ps, ?_, hreads, hlist⟩
    simp [Source.names, Source.namesM, Source.parseM_plain, hparse, Next.kind]
  | @stuck g z hnext hstuck =>
    rw [hnext] at hparse
    refine .inr ⟨scan.complaint, ps, z, hstuck, ?_⟩
    simp [Source.names, Source.namesM, Source.parseM_plain, hparse, Next.kind, Scan.offset, hnext]

/-- A list of names is read if and only if the text is one, and then it yields the names as they are
spelled. Any other text is malformed at the one place where it is stuck. -/
theorem names_language (s : Source) :
    (∀ names, s.names = .ok names ↔
      ∃ ps, Reads s.chars ps [] ∧ IsList ps (names.map String.toList)) ∧
    ∀ f, s.names = .error f → f.cause.category = .directive ∧ ∃ ps z, Stuck s.chars ps z ∧
      (∀ ps' z', Stuck s.chars ps' z' → z' = z) ∧
      f.location = some (.point s.file s.chars ↑(s.chars.length - z.length)) := by
  rcases names_outcome s with ⟨names, ps, hok, hreads, hlist⟩ | ⟨complaint, ps, z, hstuck, herror⟩
  · refine ⟨fun names' => ?_, fun f hf => by simp [hok] at hf⟩
    rw [hok, Except.ok.injEq]
    constructor
    · rintro rfl
      exact ⟨ps, hreads, hlist⟩
    · rintro ⟨ps', hreads', hlist'⟩
      -- Of two readings of the text one goes on the other, and both end at its end.
      have hps : ps = ps' := by
        rcases hreads.linear hreads' with ⟨rs, rfl, h⟩ | ⟨rs, rfl, h⟩ <;> simp [h.nil_left.1]
      exact List.map_injective_iff.mpr (fun _ _ => String.toList_injective)
        (hlist.unique (hps ▸ hlist'))
  · refine ⟨fun names => ?_, fun f hf => ?_⟩
    · rw [herror]
      constructor
      · intro h
        cases h
      · rintro ⟨ps', hreads, hlist⟩
        exact absurd hreads (hstuck.not_reads hlist.viable)
    · obtain rfl : _ = f := Except.error.inj (herror.symm.trans hf)
      exact ⟨rfl, ps, z, hstuck, fun _ _ h => h.unique hstuck, rfl⟩

/-- Comments, white space, a raw name and a comma at the end; and a name in place of a comma. -/
theorem names_language_stuck :
    (∃ ps, Reads "T /* , */, // U\n r#V,".toList ps [] ∧ IsList ps ["T".toList, "r#V".toList]) ∧
    ∃ f ps z, Source.names ⟨"<args>", "T // ,\n /** , */ U", none⟩ = .error f ∧
      Stuck "T // ,\n /** , */ U".toList ps z ∧ f.location = some (.point "<args>"
        "T // ,\n /** , */ U".toList ↑("T // ,\n /** , */ U".toList.length - z.length)) := by
  refine ⟨((names_language ⟨"<args>", "T /* , */, // U\n r#V,", none⟩).1 ["T", "r#V"]).mp
    (by decide +kernel), ?_⟩
  have hbad : (Source.names ⟨"<args>", "T // ,\n /** , */ U", none⟩).isOk =
    false := by decide +kernel
  cases hf : Source.names ⟨"<args>", "T // ,\n /** , */ U", none⟩ with
  | ok names => simp [hf, Except.isOk, Except.toBool] at hbad
  | error f =>
    obtain ⟨-, ps, z, hstuck, -, hlocation⟩ := (names_language _).2 f hf
    exact ⟨f, ps, z, rfl, hstuck, hlocation⟩

end ShadowImpl.NameList
