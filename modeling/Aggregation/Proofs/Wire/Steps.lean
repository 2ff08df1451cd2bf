import Aggregation.Wire.Error

/-! Steps that change a state and may fail. A run of two steps is a run of the first and, if that succeeds, a run of
the second from where the first got; a failing step ends the run. -/

namespace Aggregation.Wire.Stepping

variable {ε σ τ α β : Type}

theorem run_bind (x : ExceptT ε (StateM σ) α) (f : α → ExceptT ε (StateM σ) β) (s : σ) :
    (x >>= f).run.run s = match x.run.run s with
      | (.ok a, s') => (f a).run.run s'
      | (.error e, s') => (.error e, s') := by
  rw [ExceptT.run_bind, StateT.run_bind]
  rcases h : x.run.run s with ⟨e | a, s'⟩
  · simp only [bind]
    rfl
  · simp only [bind]

theorem run_bind_ok {x : ExceptT ε (StateM σ) α} {f : α → ExceptT ε (StateM σ) β} {s s' : σ} {a : α}
    (h : x.run.run s = (.ok a, s')) : (x >>= f).run.run s = (f a).run.run s' := by
  rw [run_bind, h]

theorem run_bind_error {x : ExceptT ε (StateM σ) α} {f : α → ExceptT ε (StateM σ) β} {s s' : σ} {e : ε}
    (h : x.run.run s = (.error e, s')) : (x >>= f).run.run s = (.error e, s') := by
  rw [run_bind, h]

/-- A run of two steps that succeeds passes through a state in between. -/
theorem exists_of_run_bind {x : ExceptT ε (StateM σ) α} {f : α → ExceptT ε (StateM σ) β} {s t : σ} {b : β}
    (h : (x >>= f).run.run s = (.ok b, t)) :
    ∃ a s', x.run.run s = (.ok a, s') ∧ (f a).run.run s' = (.ok b, t) := by
  rw [run_bind] at h
  rcases hx : x.run.run s with ⟨e | a, s'⟩
  · rw [hx] at h
    cases h
  · rw [hx] at h
    exact ⟨a, s', rfl, h⟩

@[simp] theorem run_pure (a : α) (s : σ) : (pure a : ExceptT ε (StateM σ) α).run.run s = (.ok a, s) := rfl

@[simp] theorem run_throw (e : ε) (s : σ) : (throw e : ExceptT ε (StateM σ) α).run.run s = (.error e, s) := rfl

@[simp] theorem run_get (s : σ) : (get : ExceptT ε (StateM σ) σ).run.run s = (.ok s, s) := rfl

@[simp] theorem run_set (s s' : σ) : (set s' : ExceptT ε (StateM σ) PUnit).run.run s = (.ok ⟨⟩, s') := rfl

@[simp] theorem run_modify (f : σ → σ) (s : σ) :
    (modify f : ExceptT ε (StateM σ) PUnit).run.run s = (.ok ⟨⟩, f s) := rfl

theorem run_eq_of_isOk {x : ExceptT ε (StateM σ) Unit} {s : σ} (h : (x.run.run s).1.isOk = true) :
    x.run.run s = (.ok (), (x.run.run s).2) := by
  rcases hrun : x.run.run s with ⟨e | _, t⟩
  · rw [hrun] at h
    cases h
  · rfl

/-- A step from a state has no result. -/
def Fails (x : ExceptT ε (StateM σ) α) (s : σ) : Prop := ∃ e t, x.run.run s = (.error e, t)

theorem fails_throw (e : ε) (s : σ) : Fails (throw e : ExceptT ε (StateM σ) α) s := ⟨e, s, rfl⟩

theorem Fails.bind {x : ExceptT ε (StateM σ) α} {s : σ} (h : Fails x s) (f : α → ExceptT ε (StateM σ) β) :
    Fails (x >>= f) s := by
  obtain ⟨e, t, hx⟩ := h
  exact ⟨e, t, run_bind_error hx⟩

theorem fails_bind_ok {x : ExceptT ε (StateM σ) α} {f : α → ExceptT ε (StateM σ) β} {s s' : σ} {a : α}
    (hx : x.run.run s = (.ok a, s')) (hf : Fails (f a) s') : Fails (x >>= f) s := by
  rwa [Fails, run_bind_ok hx]

/-- Two steps fail if the second always does. -/
theorem fails_bind_right {x : ExceptT ε (StateM σ) α} {f : α → ExceptT ε (StateM σ) β} (h : ∀ a s, Fails (f a) s)
    (s : σ) : Fails (x >>= f) s := by
  rcases hx : x.run.run s with ⟨e | a, s'⟩
  · exact ⟨e, s', run_bind_error hx⟩
  · exact fails_bind_ok hx (h a s')

theorem Fails.ne_ok {x : ExceptT ε (StateM σ) α} {s s' : σ} {a : α} (h : Fails x s) : x.run.run s ≠ (.ok a, s') := by
  obtain ⟨e, t, hx⟩ := h
  rw [hx]
  exact fun heq => by cases heq

/-- A step from a state has a result and a next state if a condition holds, and fails otherwise. -/
def Decides (x : ExceptT ε (StateM σ) α) (s : σ) (p : Prop) (a : α) (s' : σ) : Prop :=
  (p ∧ x.run.run s = (.ok a, s')) ∨ (¬p ∧ Fails x s)

section Decides

variable {x : ExceptT ε (StateM σ) α} {f : α → ExceptT ε (StateM σ) β} {s s' t : σ} {p q : Prop} {a : α} {b : β}

theorem Decides.of_ok (h : x.run.run s = (.ok a, s')) : Decides x s True a s' := .inl ⟨trivial, h⟩

theorem Decides.congr (h : Decides x s p a s') (hpq : p ↔ q) : Decides x s q a s' := by
  rwa [Decides, ← hpq]

theorem Decides.of_eq (h : Decides x s p a s') (ht : s' = t) : Decides x s p a t := ht ▸ h

/-- Two steps in turn succeed if both do. -/
theorem Decides.bind (hx : Decides x s p a s') (hf : p → Decides (f a) s' q b t) :
    Decides (x >>= f) s (p ∧ q) b t := by
  rcases hx with ⟨hp, hx⟩ | ⟨hp, hx⟩
  · rcases hf hp with ⟨hq, hf⟩ | ⟨hq, hf⟩
    · exact .inl ⟨⟨hp, hq⟩, (run_bind_ok hx).trans hf⟩
    · exact .inr ⟨fun h => hq h.2, fails_bind_ok hx hf⟩
  · exact .inr ⟨fun h => hp h.1, hx.bind f⟩

theorem Decides.bind_ok (hx : x.run.run s = (.ok a, s')) (hf : Decides (f a) s' q b t) :
    Decides (x >>= f) s q b t := by
  rcases hf with ⟨hq, hf⟩ | ⟨hq, hf⟩
  · exact .inl ⟨hq, (run_bind_ok hx).trans hf⟩
  · exact .inr ⟨hq, fails_bind_ok hx hf⟩

theorem Decides.bind_pure (hx : Decides x s p a s') (hf : (f a).run.run s' = (.ok b, t)) :
    Decides (x >>= f) s p b t := by
  have h : Decides (x >>= f) s (p ∧ True) b t := hx.bind fun _ => .of_ok hf
  rwa [and_true] at h

/-- The step succeeds exactly if its condition holds. -/
theorem Decides.ok_iff (h : Decides x s p a s') : (∃ b t, x.run.run s = (.ok b, t)) ↔ p := by
  rcases h with ⟨hp, hx⟩ | ⟨hp, hx⟩
  · exact ⟨fun _ => hp, fun _ => ⟨a, s', hx⟩⟩
  · exact ⟨fun ⟨_, _, hb⟩ => absurd hb hx.ne_ok, fun h => absurd h hp⟩

theorem Decides.run_eq (h : Decides x s p a s') (hp : p) : x.run.run s = (.ok a, s') := by
  rcases h with ⟨_, hx⟩ | ⟨hn, _⟩
  · exact hx
  · exact absurd hp hn

theorem Decides.of_run (h : Decides x s p a s') {b : α} (hrun : x.run.run s = (.ok b, t)) : p ∧ b = a ∧ t = s' := by
  rcases h with ⟨hp, hx⟩ | ⟨_, hfails⟩
  · rw [hx] at hrun
    cases hrun
    exact ⟨hp, rfl, rfl⟩
  · exact absurd hrun hfails.ne_ok

end Decides

/-- A step leaves something about the state as it was, whether it succeeds or not. -/
def Keeps (f : σ → τ) (x : ExceptT ε (StateM σ) α) : Prop := ∀ s, f (x.run.run s).2 = f s

section Keeps

variable {f : σ → τ} {x : ExceptT ε (StateM σ) α} {k : α → ExceptT ε (StateM σ) β}

theorem keeps_pure (a : α) : Keeps f (pure a : ExceptT ε (StateM σ) α) := fun _ => rfl

theorem keeps_throw (e : ε) : Keeps f (throw e : ExceptT ε (StateM σ) α) := fun _ => rfl

theorem keeps_modify {g : σ → σ} (hg : ∀ s, f (g s) = f s) :
    Keeps f (modify g : ExceptT ε (StateM σ) PUnit) := hg

theorem Keeps.bind (hx : Keeps f x) (hk : ∀ a, Keeps f (k a)) : Keeps f (x >>= k) := by
  intro s
  have hfirst := hx s
  rcases hrun : x.run.run s with ⟨e | a, s'⟩
  · rw [hrun] at hfirst
    rw [run_bind_error hrun]
    exact hfirst
  · rw [hrun] at hfirst
    rw [run_bind_ok hrun]
    exact (hk a s').trans hfirst

theorem keeps_get_bind {k : σ → ExceptT ε (StateM σ) β} (hk : ∀ s, f ((k s).run.run s).2 = f s) :
    Keeps f (get >>= k) := hk

theorem keeps_ite {c : Prop} [Decidable c] {y : ExceptT ε (StateM σ) α} (hx : Keeps f x) (hy : Keeps f y) :
    Keeps f (if c then x else y) := by
  split
  · exact hx
  · exact hy

end Keeps

/-! ## What a step brings about -/

/-- From a state in `P`, a step that succeeds leads to `Q`, and one that fails leads to `E`. -/
def Ensures (P : σ → Prop) (x : ExceptT ε (StateM σ) α) (Q : α → σ → Prop) (E : ε → σ → Prop) : Prop :=
  ∀ s, P s → (∀ a t, x.run.run s = (.ok a, t) → Q a t) ∧ ∀ e t, x.run.run s = (.error e, t) → E e t

section Ensures

variable {P P' : σ → Prop} {Q Q' : α → σ → Prop} {R : β → σ → Prop} {E : ε → σ → Prop}
  {x y : ExceptT ε (StateM σ) α} {f : α → ExceptT ε (StateM σ) β}

theorem ensures_of_ok (h : ∀ s, P s → ∃ a t, x.run.run s = (.ok a, t) ∧ Q a t) : Ensures P x Q E := by
  intro s hs
  obtain ⟨a, t, hx, hQ⟩ := h s hs
  constructor
  · intro a' t' hrun
    cases hx.symm.trans hrun
    exact hQ
  · intro e t' hrun
    cases hx.symm.trans hrun

theorem ensures_pure {a : α} (h : ∀ s, P s → Q a s) : Ensures P (pure a : ExceptT ε (StateM σ) α) Q E :=
  ensures_of_ok fun s hs => ⟨a, s, run_pure a s, h s hs⟩

theorem ensures_modify {g : σ → σ} {Q : PUnit → σ → Prop} (h : ∀ s, P s → Q ⟨⟩ (g s)) :
    Ensures P (modify g : ExceptT ε (StateM σ) PUnit) Q E :=
  ensures_of_ok fun s hs => ⟨⟨⟩, g s, run_modify g s, h s hs⟩

theorem ensures_throw {e : ε} (h : ∀ s, P s → E e s) : Ensures P (throw e : ExceptT ε (StateM σ) α) Q E := by
  intro s hs
  constructor
  · intro a t hrun
    cases hrun
  · intro e' t hrun
    cases hrun
    exact h s hs

theorem Ensures.bind (hx : Ensures P x Q E) (hf : ∀ a, Ensures (Q a) (f a) R E) : Ensures P (x >>= f) R E := by
  intro s hs
  obtain ⟨hok, herror⟩ := hx s hs
  rcases hrun : x.run.run s with ⟨e | a, s'⟩
  · rw [run_bind_error hrun]
    constructor
    · intro b t h
      cases h
    · intro e' t h
      cases h
      exact herror e s' hrun
  · rw [run_bind_ok hrun]
    exact hf a s' (hok a s' hrun)

theorem Ensures.mono (hx : Ensures P x Q E) (hP : ∀ s, P' s → P s) (hQ : ∀ a s, Q a s → Q' a s) :
    Ensures P' x Q' E := by
  intro s hs
  obtain ⟨hok, herror⟩ := hx s (hP s hs)
  exact ⟨fun a t h => hQ a t (hok a t h), herror⟩

theorem Ensures.mono_error {E' : ε → σ → Prop} (hx : Ensures P x Q E) (hE : ∀ e s, E e s → E' e s) :
    Ensures P x Q E' := by
  intro s hs
  obtain ⟨hok, herror⟩ := hx s hs
  exact ⟨hok, fun e t h => hE e t (herror e t h)⟩

theorem ensures_of_eq (h : ∀ s, P s → Ensures (· = s) x Q E) : Ensures P x Q E := fun s hs => h s hs s rfl

theorem ensures_get_bind {f : σ → ExceptT ε (StateM σ) β} (h : ∀ s, P s → Ensures (· = s) (f s) R E) :
    Ensures P (get >>= f) R E := fun s hs => h s hs s rfl

theorem ensures_set_bind {s' : σ} {k : PUnit → ExceptT ε (StateM σ) β} (h : Ensures (· = s') (k ⟨⟩) R E) :
    Ensures P (set s' >>= k) R E := fun _ _ => h s' rfl

/-- What follows a failure is not done. -/
theorem ensures_throw_bind {e : ε} {k : α → ExceptT ε (StateM σ) β} (h : ∀ s, P s → E e s) :
    Ensures P (throw e >>= k) R E :=
  (ensures_throw h).bind fun _ _ (hs : False) => hs.elim

theorem ensures_ite {c : Prop} [Decidable c] (hx : c → Ensures P x Q E) (hy : ¬c → Ensures P y Q E) :
    Ensures P (if c then x else y) Q E := by
  split
  · next hc => exact hx hc
  · next hc => exact hy hc

/-- What follows a check that never passes once it is made. -/
theorem ensures_check {c : Prop} [Decidable c] {x : ExceptT ε (StateM σ) Unit} {k : Unit → ExceptT ε (StateM σ) β}
    (hx : c → Ensures P x (fun _ _ => False) E) (hk : ¬c → Ensures P (k ()) R E) :
    Ensures P (if c then x >>= k else k ()) R E :=
  ensures_ite (fun hc => (hx hc).bind fun _ _ hs => hs.elim) hk

end Ensures

/-! ## Two runs side by side -/

/-- Two steps from two states give the same result and lead to states in a relation. -/
def Matches (R : σ → σ → Prop) (x y : ExceptT ε (StateM σ) α) (s t : σ) : Prop :=
  (x.run.run s).1 = (y.run.run t).1 ∧ R (x.run.run s).2 (y.run.run t).2

/-- From related states a step gives the same result and leads to related states. -/
def Lockstep (R : σ → σ → Prop) (x : ExceptT ε (StateM σ) α) : Prop := ∀ s t, R s t → Matches R x x s t

section Lockstep

variable {R : σ → σ → Prop} {x y : ExceptT ε (StateM σ) α} {s t : σ}

theorem Matches.bind {f g : α → ExceptT ε (StateM σ) β} (h : Matches R x y s t)
    (hf : ∀ a s' t', x.run.run s = (.ok a, s') → R s' t' → Matches R (f a) (g a) s' t') :
    Matches R (x >>= f) (y >>= g) s t := by
  obtain ⟨hresult, hstate⟩ := h
  rcases hx : x.run.run s with ⟨e | a, s'⟩
  · rcases hy : y.run.run t with ⟨result, t'⟩
    rw [hx, hy] at hresult hstate
    obtain rfl : .error e = result := hresult
    rw [Matches, run_bind_error hx, run_bind_error hy]
    exact ⟨rfl, hstate⟩
  · rcases hy : y.run.run t with ⟨result, t'⟩
    rw [hx, hy] at hresult hstate
    obtain rfl : .ok a = result := hresult
    rw [Matches, run_bind_ok hx, run_bind_ok hy]
    exact hf a s' t' hx hstate

theorem lockstep_pure (a : α) : Lockstep R (pure a : ExceptT ε (StateM σ) α) := fun _ _ h => ⟨rfl, h⟩

theorem lockstep_throw (e : ε) : Lockstep R (throw e : ExceptT ε (StateM σ) α) := fun _ _ h => ⟨rfl, h⟩

theorem lockstep_modify {f : σ → σ} (hf : ∀ s t, R s t → R (f s) (f t)) :
    Lockstep R (modify f : ExceptT ε (StateM σ) PUnit) := fun s t h => ⟨rfl, hf s t h⟩

theorem Lockstep.bind {f : α → ExceptT ε (StateM σ) β} (hx : Lockstep R x) (hf : ∀ a, Lockstep R (f a)) :
    Lockstep R (x >>= f) := fun s t h => (hx s t h).bind fun a s' t' _ h' => hf a s' t' h'

/-- What follows a look at the state stays in step if it depends only on what related states have in common. -/
theorem lockstep_get_bind {f : σ → ExceptT ε (StateM σ) β} (heq : ∀ s t, R s t → f s = f t)
    (hf : ∀ s, Lockstep R (f s)) : Lockstep R (get >>= f) := by
  intro s t h
  rw [Matches, run_bind, run_bind, run_get, run_get]
  dsimp only
  rw [heq s t h]
  exact hf t s t h

theorem matches_get_bind {f g : σ → ExceptT ε (StateM σ) β} (h : Matches R (f s) (g t) s t) :
    Matches R (get >>= f) (get >>= g) s t := by
  rw [Matches, run_bind, run_bind, run_get, run_get]
  exact h

end Lockstep

theorem discard_eq_bind {m : Type → Type} [Monad m] [LawfulMonad m] (x : m α) :
    discard x = x >>= fun _ => pure () := by
  rw [bind_pure_comp, Functor.discard, LawfulFunctor.map_const]
  rfl

end Aggregation.Wire.Stepping
