import SfcServer.Proofs.Template.Fragments

/-!
# Marks in the render method

Every expression but an `else` is written as a lead, its own text, and a tail that is
never empty.  Its mark stands between lead and text, so no two marks of a render method
share an offset, and none falls into the text of another expression.
-/

namespace SfcServer

/-!
# Loop heads
-/

namespace Text

/-- An `in` between two blanks stands at an index, the first blank included. -/
def SeparatesAt (t : Text) (i : Nat) : Prop :=
  exists a b after, t.drop i = a :: 'i' :: 'n' :: b :: after ∧ isBlank a = true ∧ isBlank b = true

/-- The first `in` between two blanks. -/
def SeparatesFirstAt (t : Text) (i : Nat) : Prop :=
  t.SeparatesAt i ∧ forall j, j < i -> ¬ t.SeparatesAt j

theorem separatesAt_zero_iff (t : Text) :
    t.SeparatesAt 0 ↔
      exists a b after, t = a :: 'i' :: 'n' :: b :: after ∧ isBlank a = true ∧
        isBlank b = true := by
  simp [SeparatesAt]

theorem separatesAt_succ (c : Char) (t : Text) (i : Nat) :
    SeparatesAt (c :: t) (i + 1) ↔ t.SeparatesAt i := by
  simp [SeparatesAt]

theorem SeparatesFirstAt.tail {c : Char} {t : Text} {i : Nat}
    (h : SeparatesFirstAt (c :: t) (i + 1)) : t.SeparatesFirstAt i := by
  refine ⟨(separatesAt_succ c t i).mp h.1, ?_⟩
  intro j hj hseparates
  exact h.2 (j + 1) (by omega) ((separatesAt_succ c t j).mpr hseparates)

end Text

theorem loopHead_separator {a b : Char} {after : Text} (ha : Text.isBlank a = true)
    (hb : Text.isBlank b = true) :
    loopHead (a :: 'i' :: 'n' :: b :: after) = " of ".toList ++ after := by
  simp [loopHead, ha, hb]

theorem loopHead_cons {c : Char} {t : Text} (h : ¬ Text.SeparatesAt (c :: t) 0) :
    loopHead (c :: t) = c :: loopHead t := by
  rw [loopHead.eq_def]
  dsimp only
  split
  · rename_i b after
    split
    · rename_i hblank
      rw [Bool.and_eq_true] at hblank
      exact absurd ⟨c, b, after, rfl, hblank.1, hblank.2⟩ h
    · rfl
  · rfl

theorem loopHead_eq {t : Text} {i : Nat} (h : t.SeparatesFirstAt i) :
    loopHead t = t.take i ++ (" of ".toList ++ t.drop (i + 4)) := by
  induction i generalizing t with
  | zero =>
      rcases (Text.separatesAt_zero_iff t).mp h.1 with ⟨a, b, after, ht, ha, hb⟩
      subst ht
      exact loopHead_separator ha hb
  | succ i ih =>
      cases t with
      | nil =>
          rcases h.1 with ⟨a, b, after, hdrop, _⟩
          simp at hdrop
      | cons c rest =>
          have hfirst : ¬ Text.SeparatesAt (c :: rest) 0 := h.2 0 (by omega)
          have hdrop : (c :: rest).drop (i + 1 + 4) = rest.drop (i + 4) := by
            rw [Nat.add_right_comm, List.drop_succ_cons]
          rw [loopHead_cons hfirst, ih h.tail, List.take_succ_cons, hdrop]
          rfl

theorem Text.SeparatesAt.le {t : Text} {i : Nat} (h : t.SeparatesAt i) : i + 4 ≤ t.length := by
  rcases h with ⟨a, b, after, hdrop, _, _⟩
  have hlength := congrArg List.length hdrop
  simp only [List.length_drop, List.length_cons] at hlength
  omega

theorem length_loopHead (t : Text) : (loopHead t).length = t.length := by
  induction t with
  | nil =>
      rfl
  | cons c rest ih =>
      by_cases hseparates : Text.SeparatesAt (c :: rest) 0
      · rcases (Text.separatesAt_zero_iff _).mp hseparates with ⟨a, b, after, ht, ha, hb⟩
        rw [ht, loopHead_separator ha hb]
        rfl
      · rw [loopHead_cons hseparates, List.length_cons, List.length_cons, ih]

theorem loopHead_getElem? {t : Text} {k : Nat}
    (h : forall i, t.SeparatesFirstAt i -> ¬ (i ≤ k ∧ k < i + 4)) :
    (loopHead t)[k]? = t[k]? := by
  induction t generalizing k with
  | nil =>
      rfl
  | cons c rest ih =>
      by_cases hseparates : Text.SeparatesAt (c :: rest) 0
      · have hk := h 0 ⟨hseparates, by intro j hj; omega⟩
        rcases (Text.separatesAt_zero_iff _).mp hseparates with ⟨a, b, after, ht, ha, hb⟩
        have hafter : exists j, k = j + 4 := ⟨k - 4, by omega⟩
        rcases hafter with ⟨j, hj⟩
        rw [ht, loopHead_separator ha hb, hj]
        rfl
      · rw [loopHead_cons hseparates]
        cases k with
        | zero =>
            rfl
        | succ k =>
            rw [List.getElem?_cons_succ, List.getElem?_cons_succ]
            apply ih
            intro i hi hbounds
            refine h (i + 1) ⟨(Text.separatesAt_succ c rest i).mpr hi.1, ?_⟩ (by omega)
            intro j hj hother
            cases j with
            | zero =>
                exact hseparates hother
            | succ j =>
                exact hi.2 j (by omega) ((Text.separatesAt_succ c rest j).mp hother)

theorem loopHead_getElem?_separator {t : Text} {i k : Nat} (h : t.SeparatesFirstAt i)
    (hle : i ≤ k) (hlt : k < i + 4) : (loopHead t)[k]? = " of ".toList[k - i]? := by
  have hlength := h.1.le
  have htake : (t.take i).length = i := by
    rw [List.length_take]
    omega
  rw [loopHead_eq h, List.getElem?_append_right (by omega), htake,
    List.getElem?_append_left (by simp; omega)]

/-!
# Expressions as code
-/

namespace Expression

def lead (x : Expression) : Text :=
  match x.kind with
  | .condition => "if(".toList
  | .elseCondition => "else if(".toList
  | .loop => "for(const ".toList
  | _ => []

def spelled (x : Expression) : Text :=
  if x.kind = .loop then loopHead x.text else x.text

def tail (x : Expression) : Text :=
  if x.opensBlock then ")\x7b".toList else ";".toList

theorem length_spelled (x : Expression) : x.spelled.length = x.text.length := by
  unfold spelled
  split
  · exact length_loopHead x.text
  · rfl

theorem length_tail_pos (x : Expression) : 0 < x.tail.length := by
  unfold tail
  split <;> simp

/-- Every expression but an `else` is a lead, a mark, its text and a tail. -/
theorem pieces_same {x : Expression} (h : x.kind ≠ .otherwise) :
    Piece.Same x.pieces [.code x.lead, .mark x.start, .code (x.spelled ++ x.tail)] := by
  cases hkind : x.kind <;>
    simp_all [Piece.Same, Piece.textOf, Piece.text, Piece.marksFrom, pieces, lead, spelled, tail,
      opensBlock]

theorem marksFrom_otherwise {x : Expression} (h : x.kind = .otherwise) (offset : Nat) :
    Piece.marksFrom offset x.pieces = [] := by
  simp [pieces, h, Piece.marksFrom]

theorem marksFrom_pieces {x : Expression} (h : x.kind ≠ .otherwise) (offset : Nat) :
    Piece.marksFrom offset x.pieces = [⟨x.start, (offset + x.lead.length : Nat)⟩] := by
  rw [(pieces_same h).2]
  simp [Piece.marksFrom]

theorem textOf_pieces {x : Expression} (h : x.kind ≠ .otherwise) :
    Piece.textOf x.pieces = x.lead ++ (x.spelled ++ x.tail) := by
  rw [(pieces_same h).1]
  simp [Piece.textOf, Piece.text]

end Expression

/-!
# Marks of fragments
-/

namespace Fragment

def marksFrom (offset : Nat) (fragments : List Fragment) : Breakpoints :=
  Piece.marksFrom offset (fragments.flatMap pieces)

theorem spell_append (a b : List Fragment) : spell (a ++ b) = spell a ++ spell b := by
  rw [spell, spell, spell, List.flatMap_append, Piece.textOf_append]

theorem spell_cons (f : Fragment) (rest : List Fragment) :
    spell (f :: rest) = Piece.textOf f.pieces ++ spell rest := by
  rw [spell, spell, List.flatMap_cons, Piece.textOf_append]

theorem marksFrom_append (offset : Nat) (a b : List Fragment) :
    marksFrom offset (a ++ b) = marksFrom offset a ++ marksFrom (offset + (spell a).length) b := by
  rw [marksFrom, marksFrom, marksFrom, List.flatMap_append, Piece.marksFrom_append]
  rfl

theorem marksFrom_cons (offset : Nat) (f : Fragment) (rest : List Fragment) :
    marksFrom offset (f :: rest) =
      Piece.marksFrom offset f.pieces ++
        marksFrom (offset + (Piece.textOf f.pieces).length) rest := by
  rw [marksFrom, marksFrom, List.flatMap_cons, Piece.marksFrom_append]

/-- A fragment has a mark when it writes an expression that is no `else`. -/
theorem marksFrom_pieces (offset : Nat) (f : Fragment) :
    Piece.marksFrom offset f.pieces = [] ∨
      exists x, f.written? = some x ∧ x.kind ≠ .otherwise ∧ f.pieces = x.pieces := by
  cases f with
  | closing x =>
      exact Or.inl rfl
  | opening x =>
      by_cases hkind : x.kind = .otherwise
      · exact Or.inl (Expression.marksFrom_otherwise hkind offset)
      · exact Or.inr ⟨x, rfl, hkind, rfl⟩
  | statement x =>
      by_cases hkind : x.kind = .otherwise
      · exact Or.inl (Expression.marksFrom_otherwise hkind offset)
      · exact Or.inr ⟨x, rfl, hkind, rfl⟩

theorem marksFrom_bounds {offset : Nat} {fragments : List Fragment} {q : Breakpoint}
    (h : q ∈ marksFrom offset fragments) :
    (offset : Int) ≤ q.target ∧ q.target < (offset + (spell fragments).length : Nat) ∧
      exists x, x ∈ written fragments ∧ x.kind ≠ .otherwise ∧ q.source = x.start := by
  induction fragments generalizing offset with
  | nil =>
      cases h
  | cons f rest ih =>
      rw [marksFrom_cons] at h
      rw [spell_cons, List.length_append]
      rcases List.mem_append.mp h with hfirst | hrest
      · rcases marksFrom_pieces offset f with hnone | ⟨x, hwritten, hkind, hpieces⟩
        · rw [hnone] at hfirst
          cases hfirst
        · rw [hpieces, Expression.marksFrom_pieces hkind] at hfirst
          have hq := List.mem_singleton.mp hfirst
          have hpos := x.length_tail_pos
          have hlength := congrArg List.length (Expression.textOf_pieces hkind)
          simp only [List.length_append] at hlength
          refine ⟨?_, ?_, x, ?_, hkind, ?_⟩
          · rw [hq]
            simp only
            omega
          · rw [hq, hpieces]
            simp only
            omega
          · exact List.mem_filterMap.mpr ⟨f, List.mem_cons_self, hwritten⟩
          · rw [hq]
      · rcases ih hrest with ⟨hlow, hhigh, x, hx, hkind, hsource⟩
        refine ⟨by omega, by omega, x, ?_, hkind, hsource⟩
        rcases List.mem_filterMap.mp hx with ⟨g, hg, hwritten⟩
        exact List.mem_filterMap.mpr ⟨g, List.mem_cons_of_mem _ hg, hwritten⟩

/-- The text of a sequence of fragments up to where an expression is spelled. -/
def upTo (x : Expression) : List Fragment -> Text
  | [] => []
  | f :: rest => if f.written? = some x then x.lead else Piece.textOf f.pieces ++ upTo x rest

theorem split_of_written {fragments : List Fragment} {x : Expression}
    (hx : x ∈ written fragments) :
    exists front f back, fragments = front ++ f :: back ∧ f.written? = some x ∧
      upTo x fragments = spell front ++ x.lead := by
  induction fragments with
  | nil =>
      cases hx
  | cons f rest ih =>
      by_cases hf : f.written? = some x
      · exists [], f, rest
        rw [upTo, if_pos hf]
        exact ⟨rfl, hf, rfl⟩
      · rcases List.mem_filterMap.mp hx with ⟨g, hg, hwritten⟩
        rcases List.mem_cons.mp hg with hfirst | hrest
        · rw [hfirst] at hwritten
          exact absurd hwritten hf
        · rcases ih (List.mem_filterMap.mpr ⟨g, hrest, hwritten⟩) with
            ⟨front, g, back, hsplit, hg, hupTo⟩
          exists f :: front, g, back
          rw [upTo, if_neg hf, hupTo, spell_cons, List.append_assoc]
          exact ⟨by rw [hsplit]; rfl, hg, rfl⟩

/-- The mark of an expression stands where its text is spelled, and no other mark in it. -/
theorem mark_of_written (offset : Nat) {fragments : List Fragment} {x : Expression}
    (hx : x ∈ written fragments) (hkind : x.kind ≠ .otherwise) :
    exists after earlier later,
      spell fragments = upTo x fragments ++ (x.spelled ++ (x.tail ++ after)) ∧
      written fragments = earlier ++ x :: later ∧
      ⟨x.start, (offset + (upTo x fragments).length : Nat)⟩ ∈ marksFrom offset fragments ∧
      forall q, q ∈ marksFrom offset fragments ->
        q ≠ ⟨x.start, (offset + (upTo x fragments).length : Nat)⟩ ->
        (q.target < (offset + (upTo x fragments).length : Nat) ∨
          (offset + (upTo x fragments).length + x.spelled.length : Nat) < q.target) ∧
        exists y, y ∈ earlier ++ later ∧ q.source = y.start := by
  rcases split_of_written hx with ⟨front, f, back, hsplit, hwritten, hupTo⟩
  have hpieces : f.pieces = x.pieces := by
    cases f with
    | closing y => cases hwritten
    | opening y => cases hwritten; rfl
    | statement y => cases hwritten; rfl
  rw [hupTo]
  subst hsplit
  have hspell : spell (front ++ f :: back) =
      (spell front ++ x.lead) ++ (x.spelled ++ (x.tail ++ spell back)) := by
    rw [spell_append, spell_cons, hpieces, Expression.textOf_pieces hkind]
    simp only [List.append_assoc]
  have hall : written (front ++ f :: back) = written front ++ x :: written back := by
    rw [written_append, written, written, written, List.filterMap_cons_some hwritten]
  have hmarks : marksFrom offset (front ++ f :: back) =
      marksFrom offset front ++
        (⟨x.start, (offset + (spell front ++ x.lead).length : Nat)⟩ ::
          marksFrom (offset + (spell front).length + (Piece.textOf x.pieces).length) back) := by
    rw [marksFrom_append, marksFrom_cons, hpieces, Expression.marksFrom_pieces hkind,
      List.length_append, ← Nat.add_assoc]
    rfl
  have hpos := x.length_tail_pos
  have hlength := congrArg List.length (Expression.textOf_pieces hkind)
  simp only [List.length_append] at hlength
  refine ⟨spell back, written front, written back, hspell, hall, ?_, ?_⟩
  · rw [hmarks]
    exact List.mem_append_right _ List.mem_cons_self
  · intro q hq hne
    rw [hmarks] at hq
    rw [List.length_append]
    rcases List.mem_append.mp hq with hfront | hrest
    · rcases marksFrom_bounds hfront with ⟨_, hbefore, y, hy, _, hsource⟩
      exact ⟨Or.inl (by omega), y, List.mem_append_left _ hy, hsource⟩
    · rcases List.mem_cons.mp hrest with heq | hback
      · exact absurd heq hne
      · rcases marksFrom_bounds hback with ⟨hafter, _, y, hy, _, hsource⟩
        exact ⟨Or.inr (by omega), y, List.mem_append_right _ hy, hsource⟩

end Fragment

end SfcServer
