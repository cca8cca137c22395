import TxHeap.Course

/-! Peeling computations with state and errors apart, one bind at a time. -/

namespace TxHeap
variable {r : Raise}

variable {ε σ α β : Type} {s s' : σ}

theorem bind_ok {x : EStateM ε σ α} {f : α → EStateM ε σ β} {a : α} (h : x s = .ok a s') :
    (x >>= f) s = f a s' := by
  change EStateM.bind x f s = _
  simp [EStateM.bind, h]

theorem bind_error {x : EStateM ε σ α} {f : α → EStateM ε σ β} {r : ε} (h : x s = .error r s') :
    (x >>= f) s = .error r s' := by
  change EStateM.bind x f s = _
  simp [EStateM.bind, h]

@[simp] theorem get_bind (f : σ → EStateM ε σ β) : (get >>= f) s = f s s := rfl

@[simp] theorem modify_bind (g : σ → σ) (f : PUnit → EStateM ε σ β) :
    (modify g >>= f) s = f ⟨⟩ (g s) := rfl

@[simp] theorem modify_run (g : σ → σ) : (modify g : EStateM ε σ PUnit) s = .ok ⟨⟩ (g s) := rfl

theorem modifyGet_run (g : σ → α × σ) : (modifyGet g : EStateM ε σ α) s = .ok (g s).1 (g s).2 := rfl

@[simp] theorem pure_bind_run (a : α) (f : α → EStateM ε σ β) : (pure a >>= f) s = f a s := rfl

@[simp] theorem pure_run (a : α) : (pure a : EStateM ε σ α) s = .ok a s := rfl

/-- Begun in `s`, `x` answers within `Q` or fails within `R`. -/
def Ends (x : EStateM ε σ α) (s : σ) (Q : α → σ → Prop) (R : ε → σ → Prop) : Prop :=
  match x s with
  | .ok a s' => Q a s'
  | .error r s' => R r s'

namespace Ends
variable {x : EStateM ε σ α} {f : α → EStateM ε σ β} {Q Q' : α → σ → Prop} {R R' : ε → σ → Prop}
  {P : β → σ → Prop} {a : α} {r : ε}

theorem of_ok (h : x s = .ok a s') (hQ : Q a s') : Ends x s Q R := by
  rwa [Ends, h]

theorem of_error (h : x s = .error r s') (hR : R r s') : Ends x s Q R := by
  rwa [Ends, h]

theorem mono (h : Ends x s Q R) (hQ : ∀ a s', Q a s' → Q' a s') (hR : ∀ r s', R r s' → R' r s') :
    Ends x s Q' R' := by
  unfold Ends at h ⊢
  split at h
  · exact hQ _ _ h
  · exact hR _ _ h

theorem imp (h : Ends x s Q R) (hQ : ∀ a s', Q a s' → Q' a s') : Ends x s Q' R :=
  h.mono hQ fun _ _ hr => hr

theorem stays {H : α → Prop} (h : Ends x s (fun a s' => s' = s ∧ H a) fun _ s' => s' = s)
    (hQ : ∀ a, H a → Q a s) (hR : ∀ r, R r s) : Ends x s Q R := by
  refine h.mono ?_ ?_
  · rintro a _ ⟨rfl, ha⟩
    exact hQ a ha
  · rintro r _ rfl
    exact hR r

protected theorem bind (h : Ends x s (fun a s' => Ends (f a) s' P R) R) : Ends (x >>= f) s P R := by
  unfold Ends at h
  split at h
  · next hx =>
    rwa [Ends, bind_ok hx]
  · next hx =>
    rwa [Ends, bind_error hx]

protected theorem pure (h : Q a s) : Ends (pure a : EStateM ε σ α) s Q R := h

theorem get_bind {f : σ → EStateM ε σ β} (h : Ends (f s) s P R) : Ends (get >>= f) s P R := h

section Layered
variable {τ : Type} {m : τ} {P : β × τ → σ → Prop}

theorem bindT {x : StateT τ (EStateM ε σ) α} {f : α → StateT τ (EStateM ε σ) β}
    (h : Ends (x.run m) s (fun p s' => Ends ((f p.1).run p.2) s' P R) R) :
    Ends ((x >>= f).run m) s P R := by
  rw [StateT.run_bind]
  exact .bind h

theorem liftT {f : α → StateT τ (EStateM ε σ) β}
    (h : Ends x s (fun a s' => Ends ((f a).run m) s' P R) R) :
    Ends (StateT.run (liftM x >>= f) m) s P R := by
  refine bindT ?_
  exact .bind (h.mono (fun _ _ ha => ha) fun _ _ hr => hr)

theorem getT {f : τ → StateT τ (EStateM ε σ) β} (h : Ends ((f m).run m) s P R) :
    Ends ((get >>= f).run m) s P R := h

theorem getTheT {f : σ → StateT τ (EStateM ε σ) β} (h : Ends ((f s).run m) s P R) :
    Ends ((getThe σ >>= f).run m) s P R := h

theorem modifyT {f : PUnit → StateT τ (EStateM ε σ) β} {g : τ → τ}
    (h : Ends ((f ⟨⟩).run (g m)) s P R) :
    Ends ((modify g >>= f).run m) s P R := h

theorem modifyTheT {f : PUnit → StateT τ (EStateM ε σ) β} {g : σ → σ}
    (h : Ends ((f ⟨⟩).run m) (g s) P R) : Ends ((modifyThe σ g >>= f).run m) s P R := h

end Layered
end Ends

namespace Action
variable {x : Action σ α} {f : α → Action σ β}

theorem bind_run : (x >>= f) s = (x s).bind fun a s => f a s := rfl

theorem bind_done {a : α} (h : x s = .done a s') : (x >>= f) s = f a s' := by
  rw [bind_run, h]
  rfl

theorem lift_ok {x : EStateM Raise σ α} {a : α} (h : x s = .ok a s') :
    (liftM x : Action σ α) s = .done a s' := by
  simp only [liftM, monadLift, MonadLift.monadLift, h]

theorem lift_error {x : EStateM Raise σ α} (h : x s = .error r s') :
    (liftM x : Action σ α) s = .raised r s' := by
  simp only [liftM, monadLift, MonadLift.monadLift, h]

theorem lift_bind_error {x : EStateM Raise σ α} (h : x s = .error r s') :
    ((liftM x : Action σ α) >>= f) s = .raised r s' := by
  rw [bind_run, lift_error h]
  rfl

theorem lift_done {x : EStateM Raise σ α} {a : α} (h : x s = .ok a s') :
    ((liftM x : Action σ α) >>= f) s = f a s' := by
  exact bind_done (lift_ok h)

@[simp] theorem look_bind (g : σ → α) : (look g >>= f) s = f (g s) s := rfl

theorem modify_bind (g : σ → σ) (f : PUnit → Action σ β) :
    ((modify g : Action σ PUnit) >>= f) s = f ⟨⟩ (g s) := rfl

theorem lift_modify (g : σ → σ) (f : PUnit → Action σ β) :
    ((liftM (modify g : EStateM Raise σ PUnit) : Action σ PUnit) >>= f) s = f ⟨⟩ (g s) := rfl

theorem lift_get (f : σ → EStateM Raise σ β) :
    (liftM (get >>= f) : Action σ β) s = (liftM (f s) : Action σ β) s := rfl

theorem lift_then (y : EStateM Raise σ α) (f : α → EStateM Raise σ β) :
    (liftM (y >>= f) : Action σ β) = liftM y >>= fun a => liftM (f a) := by
  funext s
  rw [bind_run]
  cases run : y s with
  | ok =>
    rw [lift_ok run, Course.bind_done]
    simp only [liftM, monadLift, MonadLift.monadLift, bind_ok run]
  | error => rw [lift_error run, Course.bind_raised, lift_error (bind_error run)]

end Action

namespace Course
variable {c : Course σ α} {Q Q' : α → σ → Prop} {R R' : Raise → σ → Prop} {P : β → σ → Prop}

/-- The course neither waits nor calls back; it answers within `Q` or raises within `R`. -/
def Finishes (c : Course σ α) (Q : α → σ → Prop) (R : Raise → σ → Prop) : Prop :=
  match c with
  | done a s => Q a s
  | raised r s => R r s
  | waiting .. => False
  | calling .. => False

namespace Finishes

theorem mono (h : c.Finishes Q R) (hQ : ∀ a s, Q a s → Q' a s) (hR : ∀ r s, R r s → R' r s) :
    c.Finishes Q' R' := by
  cases c with
  | done a s => exact hQ a s h
  | raised r s => exact hR r s h
  | waiting | calling => exact h

theorem known (h : c.Finishes Q R) :
    c.Finishes (fun a s => Q a s ∧ c = .done a s) fun r s => R r s ∧ c = .raised r s := by
  cases c with
  | done | raised => exact ⟨h, rfl⟩
  | waiting | calling => exact h

protected theorem bind {f : α → σ → Course σ β}
    (h : c.Finishes (fun a s => (f a s).Finishes P R) R) :
    (c.bind f).Finishes P R := by
  cases c with
  | done | raised => exact h
  | waiting | calling => exact h.elim

theorem lift {x : EStateM Raise σ α} (h : Ends x s Q R) :
    ((liftM x : Action σ α) s).Finishes Q R := by
  unfold Ends at h
  split at h
  · next hx => rwa [Action.lift_ok hx]
  · next hx => rwa [Action.lift_error hx]

theorem lift_bind {x : EStateM Raise σ α} {f : α → Action σ β} (h : Ends x s Q R)
    (ok : ∀ a s, Q a s → (f a s).Finishes P R')
    (error : ∀ r s, R r s → R' r s) : (((liftM x : Action σ α) >>= f) s).Finishes P R' :=
  .bind (lift (h.mono ok error))

theorem ending {x : Action σ α} {last : EStateM Raise σ Unit}
    (h : (x s).Finishes (fun a s' => Ends last s' (fun _ => Q a) R)
      fun r s' => Ends last s' (fun _ => R r) R) : (x.ending last s).Finishes Q R := by
  unfold Action.ending
  cases hc : x s with
  | done a s' | raised r s' =>
    rw [hc] at h
    change Ends last s' _ _ at h
    unfold Ends at h
    simp only [bindOutcome]
    split at h
    · next hl =>
      simp only [hl]
      exact h
    · next hl =>
      simp only [hl]
      exact h
  | waiting | calling =>
    rw [hc] at h
    exact h.elim

end Finishes

theorem bind_eq_bindOutcome (c : Course σ α) (f : α → σ → Course σ β) :
    c.bind f = c.bindOutcome fun out s => match out with
      | .ok a => f a s
      | .error r => .raised r s := by
  induction c with
  | done | raised => rfl
  | waiting w s resume ih => exact congrArg _ (funext ih)
  | calling c s resume ih => exact congrArg _ (funext fun r => funext (ih r))

end Course
end TxHeap
