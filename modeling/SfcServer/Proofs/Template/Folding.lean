import SfcServer.Proofs.Markup.Finding
import SfcServer.Template.Render

/-!
# Folding a template

Expressions, code and everything else that is read off a template are folds over what
each element holds directly.  The induction over elements is used here once, so that
what is proved of one step of a fold holds of the whole fold.
-/

namespace SfcServer

/-!
# Items
-/

def Item.map {α β : Type} (f : α -> β) : Item α -> Item β
  | .expression x => .expression x
  | .child value => .child (f value)

def Placed.map {α β : Type} (f : α -> β) (p : Placed α) : Placed β :=
  ⟨p.start, p.stop, f p.value⟩

namespace Item

variable {α β : Type}

@[simp] theorem map_expression (f : α -> β) (x : Expression) :
    (Item.expression x).map f = .expression x := rfl

@[simp] theorem map_child (f : α -> β) (value : α) :
    (Item.child value).map f = .child (f value) := rfl

@[simp] theorem hasKind_map (kind : ExpressionKind) (f : α -> β) (i : Item α) :
    (i.map f).hasKind kind = i.hasKind kind := by
  cases i <;> rfl

@[simp] theorem opensBlock_map (f : α -> β) (i : Item α) :
    (i.map f).opensBlock = i.opensBlock := by
  cases i <;> rfl

theorem ofSegment_map (t : Text) (reading : Expression.TagReading) (start stop : Nat)
    (f : α -> β) :
    (ofSegment t reading start stop).map (Item.map f) = ofSegment t reading start stop := by
  simp [ofSegment, Function.comp_def]

theorem among_map (t : Text) (reading : Expression.TagReading) (start stop : Nat)
    (f : α -> β) (children : List (Placed α)) :
    (among t reading start stop children).map (Item.map f) =
      among t reading start stop (children.map (Placed.map f)) := by
  induction children generalizing reading start with
  | nil =>
      exact ofSegment_map t reading start stop f
  | cons c rest ih =>
      simp only [among, List.map_append, List.map_cons, ofSegment_map, map_child, ih]
      rfl

theorem child_mem_among {t : Text} {reading : Expression.TagReading} {start stop : Nat}
    {children : List (Placed α)} {value : α}
    (h : .child value ∈ among t reading start stop children) :
    exists p, p ∈ children ∧ p.value = value := by
  induction children generalizing reading start with
  | nil =>
      simp [among, ofSegment] at h
  | cons c rest ih =>
      simp only [among, ofSegment, List.mem_append, List.mem_map, List.mem_cons] at h
      rcases h with ⟨x, _, hx⟩ | heq | hrest
      · cases hx
      · injection heq with hvalue
        exact ⟨c, List.mem_cons_self, hvalue.symm⟩
      · rcases ih hrest with ⟨p, hp, hvalue⟩
        exact ⟨p, List.mem_cons_of_mem _ hp, hvalue⟩

theorem mem_among_of_mem {t : Text} {reading : Expression.TagReading} {start stop : Nat}
    {children : List (Placed α)} {p : Placed α} (h : p ∈ children) :
    .child p.value ∈ among t reading start stop children := by
  induction children generalizing reading start with
  | nil =>
      cases h
  | cons c rest ih =>
      rw [among]
      apply List.mem_append_right
      rcases List.mem_cons.mp h with heq | hrest
      · rw [heq]
        exact List.mem_cons_self
      · exact List.mem_cons_of_mem _ (ih hrest)

end Item

/-!
# Folds
-/

namespace Element

variable {α β : Type}

theorem itemsWith_map (t : Text) (e : Element) (f : α -> β) (children : List (Placed α)) :
    (e.itemsWith t children).map (Item.map f) = e.itemsWith t (children.map (Placed.map f)) :=
  Item.among_map t e.startReading e.start e.contentStop f children

def placed (e : Element) (f : Element -> α) : List (Placed α) :=
  e.children.map fun c => ⟨c.start, c.stop, f c⟩

theorem placed_map (e : Element) (f : Element -> α) (g : α -> β) :
    (e.placed f).map (Placed.map g) = e.placed (fun c => g (f c)) := by
  simp [placed, Placed.map]

theorem foldChildren_eq (t : Text) (f : List (Item α) -> α) (es : List Element) :
    foldChildren t f es = es.map fun c => ⟨c.start, c.stop, c.foldItems t f⟩ := by
  induction es with
  | nil =>
      rfl
  | cons e rest ih =>
      rw [foldChildren, ih]
      rfl

theorem foldItems_eq (t : Text) (f : List (Item α) -> α) (e : Element) :
    e.foldItems t f = f (e.itemsWith t (e.placed fun c => c.foldItems t f)) := by
  cases e
  rw [foldItems, foldChildren_eq]
  rfl

theorem child_mem_itemsWith {t : Text} {e : Element} {f : Element -> α} {value : α}
    (h : .child value ∈ e.itemsWith t (e.placed f)) :
    exists c, c ∈ e.children ∧ f c = value := by
  rcases Item.child_mem_among h with ⟨p, hp, hvalue⟩
  rcases List.mem_map.mp hp with ⟨c, hc, hplaced⟩
  refine ⟨c, hc, ?_⟩
  rw [← hvalue, ← hplaced]

theorem mem_itemsWith_of_mem (t : Text) {e c : Element} (f : Element -> α)
    (h : c ∈ e.children) : .child (f c) ∈ e.itemsWith t (e.placed f) := by
  have hplaced : (⟨c.start, c.stop, f c⟩ : Placed α) ∈ e.placed f :=
    List.mem_map.mpr ⟨c, h, rfl⟩
  exact Item.mem_among_of_mem hplaced

theorem foldItems_related (t : Text) {R : α -> β -> Prop} {f : List (Item α) -> α}
    {g : List (Item β) -> β}
    (h : forall items : List (Item (α × β)),
      (forall value, .child value ∈ items -> R value.1 value.2) ->
      R (f (items.map (Item.map Prod.fst))) (g (items.map (Item.map Prod.snd))))
    (e : Element) : R (e.foldItems t f) (e.foldItems t g) := by
  induction e using Element.induction_on with
  | h e ih =>
      have hitems := h (e.itemsWith t (e.placed fun c => (c.foldItems t f, c.foldItems t g))) ?_
      · rw [itemsWith_map, itemsWith_map, placed_map, placed_map] at hitems
        rw [foldItems_eq, foldItems_eq]
        exact hitems
      · intro value hmem
        rcases child_mem_itemsWith hmem with ⟨c, hc, hvalue⟩
        rw [← hvalue]
        exact ih c hc

theorem foldItems_induct (t : Text) {P : α -> Prop} {f : List (Item α) -> α}
    (h : forall items, (forall value, .child value ∈ items -> P value) -> P (f items))
    (e : Element) : P (e.foldItems t f) := by
  induction e using Element.induction_on with
  | h e ih =>
      rw [foldItems_eq]
      apply h
      intro value hmem
      rcases child_mem_itemsWith hmem with ⟨c, hc, hvalue⟩
      rw [← hvalue]
      exact ih c hc

end Element

/-!
# The order of writing
-/

namespace Item

variable {α β : Type}

theorem loopFirst_map (f : α -> β) (items : List (Item α)) :
    loopFirst (items.map (Item.map f)) = (loopFirst items).map (Item.map f) := by
  have hidx : forall kind, (items.map (Item.map f)).findIdx? (hasKind kind) =
      items.findIdx? (hasKind kind) := by
    intro kind
    simp only [List.findIdx?_map, Function.comp_def, hasKind_map]
  unfold loopFirst
  rw [hidx, hidx]
  split
  · split
    · simp only [List.map_append, List.map_take, List.map_drop]
    · rfl
  · rfl

theorem loopFirst_perm (items : List (Item α)) : (loopFirst items).Perm items := by
  unfold loopFirst
  split
  · rename_i condition loop _ _
    split
    · rename_i hlt
      have hitems : items = items.take condition ++
          ((items.drop condition).take (loop - condition) ++
            ((items.drop loop).take 1 ++ items.drop (loop + 1))) := by
        have hloop : items.drop loop = (items.drop loop).take 1 ++ items.drop (loop + 1) := by
          rw [← List.drop_drop, List.take_append_drop]
        have hmiddle : items.drop condition =
            (items.drop condition).take (loop - condition) ++ items.drop loop := by
          have hdrop : items.drop loop = (items.drop condition).drop (loop - condition) := by
            rw [List.drop_drop, Nat.add_sub_cancel' (Nat.le_of_lt hlt)]
          rw [hdrop, List.take_append_drop]
        rw [← hloop, ← hmiddle, List.take_append_drop]
      have hswap := List.perm_append_comm_assoc ((items.drop loop).take 1)
        ((items.drop condition).take (loop - condition)) (items.drop (loop + 1))
      have hperm := hswap.append_left (items.take condition)
      rw [← hitems] at hperm
      simpa only [List.append_assoc] using hperm
    · exact List.Perm.refl _
  · exact List.Perm.refl _

end Item
end SfcServer
