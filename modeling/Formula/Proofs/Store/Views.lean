import Formula.Proofs.Store.Events

/-!
What lasts of an expression.

An update changes the value in a slot, an evaluation takes the stack and gives it back. What is
read off an expression apart from these two is the same however often it is evaluated and whatever
its variables are set to.
-/

namespace Formula

variable {σ α : Type} {f : Compiled σ → α} {w : Store σ}

/-- What `f` reads off an expression depends neither on the values in its slots nor on its
stack. -/
structure Lasting (f : Compiled σ → α) : Prop where
  stack : ∀ c s, f { c with stack := s } = f c
  value : ∀ (c : Compiled σ) k x,
    f { c with slots := c.slots.modify k fun a => { a with value := x } } = f c

/-- What `f` reads off each expression. -/
def Store.view (f : Compiled σ → α) (w : Store σ) (e : ExprId) : Option α :=
  (w.exprs.get? e).map f

lemma Store.view_modifyExpr (w : Store σ) (e : ExprId) {g : Compiled σ → Compiled σ}
    (hg : ∀ c, f (g c) = f c) : (w.modifyExpr e g).view f = w.view f := by
  funext e'
  unfold view modifyExpr
  simp only [Table.get?_modify]
  split
  · rw [Option.map_map]
    exact congrFun (congrArg Option.map (funext hg)) _
  · rfl

namespace Lasting

lemma update (hf : Lasting f) (w : Store σ) (v : VarId) (x : Float) :
    (w.update v x).2.view f = w.view f := by
  rcases h : w.listener v with _ | s
  · rw [w.update_of_none h]
  · rw [w.update_of_some h]
    exact (w.setCell v ⟨x, some s⟩).view_modifyExpr s.owner fun c => hf.value c s.index x

/-- Nothing that runs changes it. -/
lemma stable (hf : Lasting f) (l : ExprId → Option α) :
    Stable fun (w : Store σ) _ => w.view f = l where
  host _ _ _ h := h
  stack w e s _ h := (w.view_modifyExpr e fun c => hf.stack c s).trans h
  emit _ _ _ h := h
  update w v x _ h := (hf.update w v x).trans h
  value _ _ _ h := h
  slot _ _ _ _ _ h := h

lemma evaluate (hf : Lasting f) (depth : ℕ) (e : ExprId) (w : Store σ) :
    (Formula.evaluate depth e w).2.view f = w.view f :=
  (hf.stable (w.view f)).evaluate depth e w [] rfl

lemma target (hf : Lasting f) (depth : ℕ) (t : Target σ) (args : List Float) (w : Store σ) :
    (t.run (Formula.evaluate depth) args w).2.view f = w.view f :=
  have hstable := hf.stable (w.view f)
  hstable.target (hstable.evaluate depth) t args w [] rfl

lemma lowerStep (hf : Lasting f) (depth : ℕ) (table : SymbolTable σ) (fold : Bool) (s : Step)
    (p : Program σ) (w : Store σ) :
    (Lowering.step (Formula.evaluate depth) table fold s p w).2.view f = w.view f :=
  have hstable := hf.stable (w.view f)
  hstable.lowerStep (hstable.evaluate depth) table fold s p w [] rfl

lemma lower (hf : Lasting f) (depth : ℕ) (table : SymbolTable σ) (fold : Bool) (tree : Expr)
    (w : Store σ) :
    (Formula.lower (Formula.evaluate depth) table fold tree w).2.view f = w.view f :=
  have hstable := hf.stable (w.view f)
  hstable.lower (hstable.evaluate depth) table fold tree w [] rfl

end Lasting

end Formula
