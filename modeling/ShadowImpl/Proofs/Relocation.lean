import ShadowImpl.Proofs.Stages

/-!
# Moving places

A tree can be moved to other places. What is rendered for it and what its markers are does not show
where it stands, so moving a tree before or after a step makes no difference.
-/

namespace ShadowImpl

variable {σ τ υ : Type}

/-! ## Moving twice -/

/-- Only the place of a list is moved, the forms without a list have none. -/
theorem MetaForm.map_map (f : σ → τ) (g : τ → υ) (m : MetaForm σ) :
    (m.map f).map g = m.map (g ∘ f) := by
  cases m <;> rfl

theorem Meta.map_map (f : σ → τ) (g : τ → υ) (m : Meta σ) : (m.map f).map g = m.map (g ∘ f) := by
  simp only [Meta.map, MetaForm.map_map, Function.comp_apply]

/-- An attribute is moved with its content, which a documentation comment does not have. -/
theorem Attribute.map_map (f : σ → τ) (g : τ → υ) (a : Attribute σ) :
    (a.map f).map g = a.map (g ∘ f) := by
  simp only [Attribute.map, Option.map_map, Function.comp_apply]
  congr 1
  exact congrArg (Option.map · a.content) (funext fun m => m.map_map f g)

theorem Attribute.map_map_list (f : σ → τ) (g : τ → υ) (as : List (Attribute σ)) :
    (as.map (Attribute.map f)).map (Attribute.map g) = as.map (Attribute.map (g ∘ f)) := by
  rw [List.map_map]
  exact congrArg (List.map · as) (funext fun a => a.map_map f g)

/-- Of a method, its attributes and its place are moved. -/
theorem Method.map_map (f : σ → τ) (g : τ → υ) (m : Method σ) :
    (m.map f).map g = m.map (g ∘ f) := by
  simp only [Method.map, Attribute.map_map_list, Function.comp_apply]

theorem VerbatimItem.map_map (f : σ → τ) (g : τ → υ) (v : VerbatimItem σ) :
    (v.map f).map g = v.map (g ∘ f) := by
  simp only [VerbatimItem.map, Attribute.map_map_list, Function.comp_apply]

/-- Moving an item twice moves it once. -/
theorem Item.map_map (f : σ → τ) (g : τ → υ) (i : Item σ) : (i.map f).map g = i.map (g ∘ f) := by
  cases i with
  | method m => exact congrArg Item.method (m.map_map f g)
  | verbatim v => exact congrArg Item.verbatim (v.map_map f g)

/-- Moving a block twice moves it once: all that it holds is moved by the same function. -/
theorem ImplBlock.map_map (f : σ → τ) (g : τ → υ) (b : ImplBlock σ) :
    (b.map f).map g = b.map (g ∘ f) := by
  have hitems : (b.items.map (Item.map f)).map (Item.map g) = b.items.map (Item.map (g ∘ f)) := by
    rw [List.map_map]
    exact congrArg (List.map · b.items) (funext fun i => i.map_map f g)
  simp only [ImplBlock.map, Attribute.map_map_list, hitems, Function.comp_apply]

/-! ## Markers -/

/-- What a marker is told by is its path, not its place. -/
@[simp] theorem Attribute.isThe_map (f : σ → τ) (marker : Marker) (a : Attribute σ) :
    (a.map f).isThe marker = a.isThe marker := by
  rcases a with ⟨style, content, text, place⟩
  cases content <;> rfl

/-- Attributes can be moved before or after the markers among them are dropped. -/
theorem Attribute.filter_not_isThe_map (f : σ → τ) (marker : Marker) (as : List (Attribute σ)) :
    (as.map (Attribute.map f)).filter (fun a => !a.isThe marker) =
      (as.filter fun a => !a.isThe marker).map (Attribute.map f) := by
  rw [List.filter_map]
  congr 2
  funext a
  simp

/-- Expanding a method leaves each place as it is. -/
theorem Method.map_expand (f : σ → τ) (m : Method σ) (d : Directive) :
    (m.map f).expand d = (m.expand d).map f := by
  simp only [Method.expand, Method.map, Attribute.filter_not_isThe_map]

/-! ## Rendering -/

/-- Attributes are rendered as they are written. -/
@[simp] theorem Attribute.renderEach_map (f : σ → τ) (indent : String) (as : List (Attribute σ)) :
    renderEach indent (as.map (Attribute.map f)) = renderEach indent as := by
  rw [renderEach, renderEach, List.map_map]
  rfl

/-- A method is rendered from its parts, and none of them is a place. -/
@[simp] theorem Method.render_map (f : σ → τ) (m : Method σ) (indent : String) :
    (m.map f).render indent = m.render indent := by
  rw [Method.render, Method.render, Method.map, Attribute.renderEach_map]
  rfl

/-- An item is rendered alike wherever it stands. -/
@[simp] theorem Item.render_map (f : σ → τ) (indent : String) (i : Item σ) :
    (i.map f).render indent = i.render indent := by
  cases i with
  | method m => exact m.render_map f indent
  | verbatim v =>
    simp only [Item.map, VerbatimItem.map, Item.render, Attribute.renderEach_map]

/-- The parts of a body are rendered alike wherever the block stands. -/
theorem ImplBlock.parts_map (f : σ → τ) (b : ImplBlock σ) : (b.map f).parts = b.parts := by
  have hitems : (b.items.map (Item.map f)).map (Item.render indentation) =
      b.items.map (Item.render indentation) := by
    rw [List.map_map]
    exact congrArg (List.map · b.items) (funext fun i => i.render_map f indentation)
  simp only [ImplBlock.parts, ImplBlock.map, List.isEmpty_map, Attribute.renderEach_map, hitems]

/-- A block is rendered alike wherever it stands. -/
@[simp] theorem ImplBlock.render_map (f : σ → τ) (b : ImplBlock σ) :
    (b.map f).render = b.render := by
  rw [ImplBlock.render, ImplBlock.render, ImplBlock.parts_map, ImplBlock.map,
    Attribute.renderEach_map]
  rfl

end ShadowImpl
