import Mathlib.Tactic.Common

/-!
Runs of steps with a state that may fail. A run that succeeds went through runs that succeed of all
its parts, in order.
-/

namespace ScriptEngine.State

variable {ε σ α β : Type} {s s' : σ}

theorem bind_eq_ok {x : EStateM ε σ α} {f : α → EStateM ε σ β} {b : β} :
    (x >>= f) s = .ok b s' ↔ ∃ a t, x s = .ok a t ∧ f a t = .ok b s' := by
  change EStateM.bind x f s = .ok b s' ↔ _
  unfold EStateM.bind
  cases x s <;> simp

theorem bind_of_ok {x : EStateM ε σ α} {f : α → EStateM ε σ β} {a : α} {t : σ} (hx : x s = .ok a t) :
    (x >>= f) s = f a t := by
  change EStateM.bind x f s = f a t
  unfold EStateM.bind
  rw [hx]

/-- What comes after steps depends on how they end. -/
theorem bind_of_run {x y : EStateM ε σ α} {f : α → EStateM ε σ β} {t : σ} (h : x s = y t) :
    (x >>= f) s = (y >>= f) t := by
  change EStateM.bind x f s = EStateM.bind y f t
  unfold EStateM.bind
  rw [h]

theorem bind_of_error {x : EStateM ε σ α} {f : α → EStateM ε σ β} {e : ε} {t : σ}
    (hx : x s = .error e t) : (x >>= f) s = .error e t := by
  change EStateM.bind x f s = .error e t
  unfold EStateM.bind
  rw [hx]

theorem get_bind (f : σ → EStateM ε σ β) : ((get : EStateM ε σ σ) >>= f) s = f s s := rfl

theorem modify_bind (f : σ → σ) (k : PUnit → EStateM ε σ β) :
    ((modify f : EStateM ε σ PUnit) >>= k) s = k ⟨⟩ (f s) := rfl

theorem map_eq_ok {x : EStateM ε σ α} {f : α → β} {b : β} :
    (f <$> x) s = .ok b s' ↔ ∃ a, x s = .ok a s' ∧ f a = b := by
  change EStateM.map f x s = .ok b s' ↔ _
  unfold EStateM.map
  cases x s <;> simp [and_comm]

theorem seqRight_eq_ok {x : EStateM ε σ α} {y : EStateM ε σ β} {b : β} :
    (x *> y) s = .ok b s' ↔ ∃ a t, x s = .ok a t ∧ y t = .ok b s' := by
  change EStateM.seqRight x (fun _ => y) s = .ok b s' ↔ _
  unfold EStateM.seqRight
  cases x s <;> simp

theorem seqRight_of_ok {x : EStateM ε σ α} {y : EStateM ε σ β} {a : α} (hx : x s = .ok a s') :
    (x *> y) s = y s' := by
  change EStateM.seqRight x (fun _ => y) s = y s'
  unfold EStateM.seqRight
  rw [hx]

theorem pure_eq_ok {a b : α} : (pure a : EStateM ε σ α) s = .ok b s' ↔ a = b ∧ s = s' := by
  change EStateM.pure a s = .ok b s' ↔ _
  simp [EStateM.pure]

theorem throw_eq_ok {e : ε} {b : α} : (throw e : EStateM ε σ α) s = .ok b s' ↔ False := by
  change EStateM.Result.error e s = .ok b s' ↔ False
  simp

theorem get_eq_ok {t : σ} : (get : EStateM ε σ σ) s = .ok t s' ↔ s = t ∧ s = s' := by
  change EStateM.Result.ok s s = .ok t s' ↔ _
  simp

theorem set_eq_ok {t : σ} {u : PUnit} :
    (set t : EStateM ε σ PUnit) s = .ok u s' ↔ t = s' := by
  change EStateM.Result.ok PUnit.unit t = .ok u s' ↔ _
  simp

theorem modify_eq_ok {f : σ → σ} {u : PUnit} :
    (modify f : EStateM ε σ PUnit) s = .ok u s' ↔ f s = s' := by
  change EStateM.Result.ok PUnit.unit (f s) = .ok u s' ↔ _
  simp

theorem discard_eq_ok {x : EStateM ε σ α} {u : PUnit} :
    (discard x) s = .ok u s' ↔ ∃ a, x s = .ok a s' := by
  change EStateM.map (fun _ => u) x s = .ok u s' ↔ _
  unfold EStateM.map
  cases x s <;> simp

theorem forM_cons_eq_ok {a : α} {l : List α} {f : α → EStateM ε σ PUnit} {u : PUnit} :
    ((a :: l).forM f) s = .ok u s' ↔ ∃ t, f a s = .ok ⟨⟩ t ∧ (l.forM f) t = .ok ⟨⟩ s' := by
  change (f a >>= fun _ => l.forM f) s = .ok u s' ↔ _
  rw [bind_eq_ok]
  exact ⟨fun ⟨_, t, h⟩ => ⟨t, h⟩, fun ⟨t, h⟩ => ⟨_, t, h⟩⟩

theorem mapM_cons_eq_ok {a : α} {l : List α} {f : α → EStateM ε σ β} {r : List β} :
    ((a :: l).mapM f) s = .ok r s' ↔
      ∃ b t rest, f a s = .ok b t ∧ (l.mapM f) t = .ok rest s' ∧ r = b :: rest := by
  rw [List.mapM_cons]
  simp only [bind_eq_ok, pure_eq_ok]
  constructor
  · rintro ⟨b, t, hb, rest, t', hr, rfl, rfl⟩
    exact ⟨b, t, rest, hb, hr, rfl⟩
  · rintro ⟨b, t, rest, hb, hr, rfl⟩
    exact ⟨b, t, hb, rest, s', hr, rfl, rfl⟩

/-- The state in which a run ends, whether it succeeds or fails. -/
def finalState (x : EStateM ε σ α) (s : σ) : σ :=
  match x s with
  | .ok _ t => t
  | .error _ t => t

theorem finalState_ok {x : EStateM ε σ α} {a : α} (h : x s = .ok a s') : finalState x s = s' := by
  unfold finalState
  rw [h]

theorem finalState_error {x : EStateM ε σ α} {e : ε} (h : x s = .error e s') :
    finalState x s = s' := by
  unfold finalState
  rw [h]

/-- A run of two steps ends where the second one does, or where the first one fails. -/
theorem finalState_bind {P : σ → Prop} {x : EStateM ε σ α} {f : α → EStateM ε σ β}
    (hok : ∀ a t, x s = .ok a t → P (finalState (f a) t))
    (herror : ∀ e t, x s = .error e t → P t) : P (finalState (x >>= f) s) := by
  change P (finalState (EStateM.bind x f) s)
  unfold finalState EStateM.bind
  cases hx : x s with
  | ok a t =>
    have hfinal := hok a t hx
    unfold finalState at hfinal
    exact hfinal
  | error e t => exact herror e t hx

/-! ### Runs that agree -/

/-- Runs from the same state end in the same state, both with related results or both with the same
error. -/
def Agrees (R : α → β → Prop) (x : EStateM ε σ α) (y : EStateM ε σ β) : Prop :=
  ∀ s, match x s, y s with
    | .ok a t, .ok b t' => R a b ∧ t = t'
    | .error e t, .error e' t' => e = e' ∧ t = t'
    | .ok _ _, .error _ _ => False
    | .error _ _, .ok _ _ => False

section

variable {γ δ : Type} {R : α → β → Prop} {S : γ → δ → Prop} {x : EStateM ε σ α}
  {y : EStateM ε σ β} {f : α → EStateM ε σ γ} {g : β → EStateM ε σ δ}

theorem Agrees.pure {a : α} {b : β} (h : R a b) :
    Agrees R (pure a : EStateM ε σ α) (pure b) := fun _ => ⟨h, rfl⟩

theorem Agrees.throw (e : ε) : Agrees R (throw e : EStateM ε σ α) (throw e) := fun _ => ⟨rfl, rfl⟩

theorem Agrees.refl (x : EStateM ε σ α) : Agrees Eq x x := by
  intro s
  cases x s <;> simp

theorem Agrees.bind (h : Agrees R x y) (hf : ∀ a b, R a b → Agrees S (f a) (g b)) :
    Agrees S (x >>= f) (y >>= g) := by
  intro s
  have hs := h s
  cases hx : x s with
  | ok a t =>
    cases hy : y s with
    | ok b t' =>
      rw [hx, hy] at hs
      obtain ⟨hr, rfl⟩ := hs
      rw [bind_of_ok hx, bind_of_ok hy]
      exact hf a b hr t
    | error e t' =>
      rw [hx, hy] at hs
      exact hs.elim
  | error e t =>
    cases hy : y s with
    | ok b t' =>
      rw [hx, hy] at hs
      exact hs.elim
    | error e' t' =>
      rw [hx, hy] at hs
      rw [bind_of_error hx, bind_of_error hy]
      exact hs

/-- Runs that begin in the same way. -/
theorem Agrees.bind_same {f : α → EStateM ε σ γ} {g : α → EStateM ε σ δ}
    (hf : ∀ a, Agrees S (f a) (g a)) : Agrees S (x >>= f) (x >>= g) :=
  (Agrees.refl x).bind fun a _ h => h ▸ hf a

theorem Agrees.eq {x y : EStateM ε σ α} (h : Agrees Eq x y) : x = y := by
  funext s
  have hs := h s
  cases hx : x s <;> cases hy : y s <;> rw [hx, hy] at hs
  · rw [hs.1, hs.2]
  · exact hs.elim
  · exact hs.elim
  · rw [hs.1, hs.2]

end

end ScriptEngine.State
