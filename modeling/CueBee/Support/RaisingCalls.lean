import Mathlib.Data.List.Basic

/-! # Calls that return or raise

A call on a mutable object is an `EStateM` action: it returns a value or raises an
exception, and in both cases it leaves a state behind. A raised exception undoes
nothing. This file has the rules for calls on a component of a larger object, for
postconditions of both exits, and for runs in which the caller survives exceptions.
-/
namespace CueBee.Raising
variable {σ τ ε δ α β : Type}

/-- The state a call leaves, whether it returned or raised. -/
def after (x : EStateM ε σ α) (s : σ) : σ :=
  match x s with
  | .ok _ t => t
  | .error _ t => t

/-- What a call reports to its caller. -/
def outcome (x : EStateM ε σ α) (s : σ) : Except ε α :=
  match x s with
  | .ok a _ => .ok a
  | .error e _ => .error e

/-- A call that raises from no state. -/
def Returns (x : EStateM ε σ α) : Prop := ∀ s, ∃ a t, x s = .ok a t

/-- A call on the component `part s` of the object `s`. -/
def focus (part : σ → τ) (put : τ → σ → σ) (wrap : δ → ε) (x : EStateM δ τ α) : EStateM ε σ α :=
  fun s => match x (part s) with
    | .ok a t => .ok a (put t s)
    | .error e t => .error (wrap e) (put t s)

/-- Postconditions for the two exits of one call. -/
def Ensures (x : EStateM ε σ α) (s : σ) (post : α → σ → Prop) (raised : ε → σ → Prop) : Prop :=
  match x s with
  | .ok a t => post a t
  | .error e t => raised e t

section Equations
variable {x : EStateM ε σ α} {s t : σ} {a : α} {e : ε}

theorem bind_ok {f : α → EStateM ε σ β} (h : x s = .ok a t) : (x >>= f) s = f a t := by
  show EStateM.bind x f s = f a t
  simp [EStateM.bind,h]

theorem bind_error {f : α → EStateM ε σ β} (h : x s = .error e t) :
    (x >>= f) s = .error e t := by
  show EStateM.bind x f s = .error e t
  simp [EStateM.bind,h]

theorem bind_ok_iff {f : α → EStateM ε σ β} {b : β} {u : σ} :
    (x >>= f) s = .ok b u ↔ ∃ a t, x s = .ok a t ∧ f a t = .ok b u := by
  cases hx : x s with
  | ok a t =>
    rw [bind_ok hx]
    constructor
    · exact fun h => ⟨a,t,rfl,h⟩
    · rintro ⟨a',t',h,h'⟩
      cases h
      exact h'
  | error e t =>
    rw [bind_error hx]
    constructor
    · intro h
      cases h
    · rintro ⟨a',t',h,-⟩
      cases h

theorem map_ok {f : α → β} (h : x s = .ok a t) : (f <$> x) s = .ok (f a) t := by
  show EStateM.map f x s = .ok (f a) t
  simp [EStateM.map,h]

theorem map_error {f : α → β} (h : x s = .error e t) : (f <$> x) s = .error e t := by
  show EStateM.map f x s = .error e t
  simp [EStateM.map,h]

@[simp] theorem pure_apply (a : α) (s : σ) : (pure a : EStateM ε σ α) s = .ok a s := rfl
@[simp] theorem throw_apply (e : ε) (s : σ) : (throw e : EStateM ε σ α) s = .error e s := rfl
@[simp] theorem get_apply (s : σ) : (get : EStateM ε σ σ) s = .ok s s := rfl
@[simp] theorem modify_apply (f : σ → σ) (s : σ) :
    (modify f : EStateM ε σ PUnit) s = .ok ⟨⟩ (f s) := rfl

theorem after_ok (h : x s = .ok a t) : after x s = t := by
  simp only [after,h]

theorem after_error (h : x s = .error e t) : after x s = t := by
  simp only [after,h]

theorem after_discard : after (do let _ ← x) s = after x s := by
  cases hx : x s with
  | ok a t =>
    rw [after_ok hx]
    exact after_ok (bind_ok hx)
  | error e t =>
    rw [after_error hx]
    exact after_error (bind_error hx)

theorem after_map (f : α → β) : after (f <$> x) s = after x s := by
  cases hx : x s with
  | ok a t => rw [after_ok (map_ok hx),after_ok hx]
  | error e t => rw [after_error (map_error hx),after_error hx]

theorem outcome_ok (h : x s = .ok a t) : outcome x s = .ok a := by
  simp only [outcome,h]

theorem outcome_error (h : x s = .error e t) : outcome x s = .error e := by
  simp only [outcome,h]

theorem outcome_map (f : α → β) : outcome (f <$> x) s = (outcome x s).map f := by
  cases hx : x s with
  | ok a t => rw [outcome_ok (map_ok hx),outcome_ok hx,Except.map]
  | error e t => rw [outcome_error (map_error hx),outcome_error hx,Except.map]

/-- Part of the value of a call that returns. -/
theorem exists_of_outcome {f : α → β} {b : β} (h : (outcome x s).map f = .ok b) :
    ∃ a t, x s = .ok a t ∧ f a = b := by
  cases hx : x s with
  | ok a t =>
    rw [outcome_ok hx] at h
    exact ⟨a,t,rfl,by injection h⟩
  | error e t =>
    rw [outcome_error hx] at h
    cases h

theorem focus_ok {part : τ → σ} {put : σ → τ → τ} {wrap : ε → δ} {r : τ}
    (h : x (part r) = .ok a t) : focus part put wrap x r = .ok a (put t r) := by
  simp only [focus,h]

theorem focus_error {part : τ → σ} {put : σ → τ → τ} {wrap : ε → δ} {r : τ}
    (h : x (part r) = .error e t) : focus part put wrap x r = .error (wrap e) (put t r) := by
  simp only [focus,h]

end Equations

section Postconditions
variable {x : EStateM ε σ α} {s : σ} {post post' : α → σ → Prop} {raised raised' : ε → σ → Prop}

theorem Ensures.mono (h : Ensures x s post raised) (hp : ∀ a t, post a t → post' a t)
    (hr : ∀ e t, raised e t → raised' e t) : Ensures x s post' raised' := by
  unfold Ensures at *
  cases hx : x s with
  | ok a t =>
    rw [hx] at h
    exact hp a t h
  | error e t =>
    rw [hx] at h
    exact hr e t h

theorem Ensures.of_ok {a : α} {t : σ} (hx : x s = .ok a t) (h : post a t) :
    Ensures x s post raised := by
  simpa only [Ensures,hx] using h

theorem Ensures.of_error {e : ε} {t : σ} (hx : x s = .error e t) (h : raised e t) :
    Ensures x s post raised := by
  simpa only [Ensures,hx] using h

theorem Ensures.ok {a : α} {t : σ} (h : Ensures x s post raised) (hx : x s = .ok a t) :
    post a t := by
  simpa only [Ensures,hx] using h

theorem Ensures.error {e : ε} {t : σ} (h : Ensures x s post raised) (hx : x s = .error e t) :
    raised e t := by
  simpa only [Ensures,hx] using h

/-- A sequence of two calls stops at the first exception. -/
theorem ensures_bind {f : α → EStateM ε σ β} {post : β → σ → Prop} :
    Ensures (x >>= f) s post raised ↔
      Ensures x s (fun a t => Ensures (f a) t post raised) raised := by
  cases hx : x s with
  | ok a t =>
    have hb := bind_ok (f := f) hx
    simp only [Ensures,hb,hx]
  | error e t =>
    have hb := bind_error (f := f) hx
    simp only [Ensures,hb,hx]

theorem Ensures.bind {f : α → EStateM ε σ β} {mid : α → σ → Prop} {post : β → σ → Prop}
    (hx : Ensures x s mid raised) (hf : ∀ a t, mid a t → Ensures (f a) t post raised) :
    Ensures (x >>= f) s post raised :=
  ensures_bind.mpr (hx.mono hf (fun _ _ h => h))

theorem ensures_focus {part : τ → σ} {put : σ → τ → τ} {wrap : ε → δ} {r : τ}
    {post : α → τ → Prop} {raised : δ → τ → Prop} :
    Ensures (focus part put wrap x) r post raised ↔
      Ensures x (part r) (fun a t => post a (put t r)) (fun e t => raised (wrap e) (put t r)) := by
  cases hx : x (part r) with
  | ok a t => simp only [Ensures,hx,focus_ok hx]
  | error e t => simp only [Ensures,hx,focus_error hx]

/-- A call that keeps `I` at both exits. -/
def Keeps (I : σ → Prop) (x : EStateM ε σ α) : Prop := ∀ s, I s → I (after x s)

section Keeping
variable {I : σ → Prop} {x : EStateM ε σ α}

theorem keeps_iff : Keeps I x ↔ ∀ s, I s → Ensures x s (fun _ => I) (fun _ => I) := by
  refine forall₂_congr (fun s _ => ?_)
  cases hx : x s with
  | ok a t => rw [after,Ensures,hx]
  | error e t => rw [after,Ensures,hx]

theorem Keeps.ok (h : Keeps I x) {s t : σ} {a : α} (hs : I s) (hx : x s = .ok a t) : I t :=
  (keeps_iff.mp h s hs).ok hx

theorem Keeps.error (h : Keeps I x) {s t : σ} {e : ε} (hs : I s) (hx : x s = .error e t) : I t :=
  (keeps_iff.mp h s hs).error hx

theorem keeps_pure (a : α) : Keeps I (pure a : EStateM ε σ α) := fun _ hs => hs

theorem keeps_throw (e : ε) : Keeps I (throw e : EStateM ε σ α) := fun _ hs => hs

theorem keeps_get : Keeps I (get : EStateM ε σ σ) := fun _ hs => hs

theorem keeps_modify {f : σ → σ} (h : ∀ s, I s → I (f s)) :
    Keeps I (modify f : EStateM ε σ PUnit) := h

theorem keeps_bind {f : α → EStateM ε σ β} (hx : Keeps I x) (hf : ∀ a, Keeps I (f a)) :
    Keeps I (x >>= f) := by
  refine keeps_iff.mpr (fun s hs => ensures_bind.mpr ?_)
  exact (keeps_iff.mp hx s hs).mono (fun a t ht => keeps_iff.mp (hf a) t ht) (fun _ _ ht => ht)

theorem keeps_map (f : α → β) (hx : Keeps I x) : Keeps I (f <$> x) := by
  intro s hs
  rw [Raising.after_map]
  exact hx s hs

theorem keeps_ite {p : Prop} [Decidable p] {y : EStateM ε σ α} (hx : p → Keeps I x)
    (hy : ¬p → Keeps I y) : Keeps I (if p then x else y) := by
  by_cases hp : p
  · rw [if_pos hp]
    exact hx hp
  · rw [if_neg hp]
    exact hy hp

/-- A call on a component keeps what the component's own steps keep. -/
theorem keeps_focus {part : τ → σ} {put : σ → τ → τ} {wrap : ε → δ} {J : τ → Prop}
    (h : ∀ r, J r → Ensures x (part r) (fun _ t => J (put t r)) (fun _ t => J (put t r))) :
    Keeps J (focus part put wrap x) :=
  keeps_iff.mpr (fun r hr => ensures_focus.mpr (h r hr))

end Keeping

theorem Ensures.after {I : σ → Prop} (h : Ensures x s (fun _ => I) (fun _ => I)) :
    I (after x s) := by
  cases hx : x s with
  | ok a t =>
    rw [after_ok hx]
    exact h.ok hx
  | error e t =>
    rw [after_error hx]
    exact h.error hx

end Postconditions

section Runs
variable {Op : Type} (exec : Op → EStateM ε σ α)

/-- The caller issues the operations one after another and survives every exception. -/
def runAll (ops : List Op) (s : σ) : σ := ops.foldl (fun s op => after (exec op) s) s

@[simp] theorem runAll_nil (s : σ) : runAll exec [] s = s := rfl
@[simp] theorem runAll_cons (op : Op) (ops : List Op) (s : σ) :
    runAll exec (op :: ops) s = runAll exec ops (after (exec op) s) := rfl

theorem runAll_append (ops more : List Op) (s : σ) :
    runAll exec (ops ++ more) s = runAll exec more (runAll exec ops s) := by
  simp [runAll,List.foldl_append]

/-- Every operation of the run is issued in a state that meets `cond`. -/
def RunMeets (cond : Op → σ → Prop) : List Op → σ → Prop
  | [], _ => True
  | op :: rest, s => cond op s ∧ RunMeets cond rest (after (exec op) s)

variable {exec}

theorem runMeets_append {cond : Op → σ → Prop} {ops more : List Op} {s : σ} :
    RunMeets exec cond (ops ++ more) s ↔
      RunMeets exec cond ops s ∧ RunMeets exec cond more (runAll exec ops s) := by
  induction ops generalizing s with
  | nil => exact (and_iff_right trivial).symm
  | cons op rest ih =>
    rw [List.cons_append,RunMeets,RunMeets,and_assoc,ih]
    rfl

theorem RunMeets.keeps {cond : Op → σ → Prop} {I : σ → Prop}
    (hstep : ∀ op s, I s → cond op s → I (after (exec op) s)) {ops : List Op} {s : σ}
    (hs : I s) (hc : RunMeets exec cond ops s) : I (runAll exec ops s) := by
  induction ops generalizing s with
  | nil => exact hs
  | cons op rest ih => exact ih (hstep op s hs hc.1) hc.2

/-- Two conditions that agree wherever a run that meets `given` gets to hold of the same runs
that meet `given`. -/
theorem runMeets_congr_of {given cond cond' : Op → σ → Prop} {I : σ → Prop}
    (hiff : ∀ op s, I s → given op s → (cond op s ↔ cond' op s))
    (hstep : ∀ op s, I s → given op s → cond op s → I (after (exec op) s)) (ops : List Op) {s : σ}
    (hs : I s) (hgiven : RunMeets exec given ops s) :
    RunMeets exec cond ops s ↔ RunMeets exec cond' ops s := by
  induction ops generalizing s with
  | nil => exact Iff.rfl
  | cons op rest ih =>
    refine ⟨?_,?_⟩
    · rintro ⟨hop,hrest⟩
      exact ⟨(hiff op s hs hgiven.1).mp hop,(ih (hstep op s hs hgiven.1 hop) hgiven.2).mp hrest⟩
    · rintro ⟨hop,hrest⟩
      have hcond := (hiff op s hs hgiven.1).mpr hop
      exact ⟨hcond,(ih (hstep op s hs hgiven.1 hcond) hgiven.2).mpr hrest⟩

/-- Two conditions that agree wherever the run gets to hold of the same runs. -/
theorem runMeets_congr {cond cond' : Op → σ → Prop} {I : σ → Prop}
    (hiff : ∀ op s, I s → (cond op s ↔ cond' op s))
    (hstep : ∀ op s, I s → cond op s → I (after (exec op) s)) (ops : List Op) {s : σ} (hs : I s) :
    RunMeets exec cond ops s ↔ RunMeets exec cond' ops s := by
  have hnothing : ∀ (ops : List Op) (s : σ), RunMeets exec (fun _ _ => True) ops s := by
    intro ops
    induction ops with
    | nil => exact fun _ => trivial
    | cons op rest ih => exact fun s => ⟨trivial,ih _⟩
  exact runMeets_congr_of (fun op s h _ => hiff op s h) (fun op s h _ => hstep op s h) ops hs
    (hnothing ops s)

theorem runAll_keeps {I : σ → Prop} (hstep : ∀ op, Keeps I (exec op)) (ops : List Op) {s : σ}
    (hs : I s) : I (runAll exec ops s) := by
  induction ops generalizing s with
  | nil => exact hs
  | cons op rest ih => exact ih (hstep op s hs)

/-- A reflexive and transitive relation that every operation respects relates the two
ends of every run. The invariant `I` is available at each step. -/
theorem runAll_relates {I : σ → Prop} {R : σ → σ → Prop} (hrefl : ∀ s, R s s)
    (htrans : ∀ {s t u}, R s t → R t u → R s u) (hI : ∀ op, Keeps I (exec op))
    (hstep : ∀ op s, I s → R s (after (exec op) s)) (ops : List Op) {s : σ} (hs : I s) :
    R s (runAll exec ops s) := by
  induction ops generalizing s with
  | nil => exact hrefl s
  | cons op rest ih => exact htrans (hstep op s hs) (ih (hI op s hs))

end Runs

section Lockstep
variable {R : σ → τ → Prop}

/-- From `s` and `t` the two calls return or raise alike and leave related states. -/
def Lockstep (R : σ → τ → Prop) (x : EStateM ε σ α) (s : σ) (y : EStateM ε τ α) (t : τ) : Prop :=
  outcome x s = outcome y t ∧ R (after x s) (after y t)

theorem lockstep_pure {s : σ} {t : τ} (a : α) (h : R s t) :
    Lockstep R (pure a : EStateM ε σ α) s (pure a : EStateM ε τ α) t := ⟨rfl,h⟩

theorem Lockstep.of_ok {x : EStateM ε σ α} {y : EStateM ε τ α} {s s' : σ} {t t' : τ} {a : α}
    (hx : x s = .ok a s') (hy : y t = .ok a t') (h : R s' t') : Lockstep R x s y t := by
  refine ⟨(outcome_ok hx).trans (outcome_ok hy).symm,?_⟩
  rwa [after_ok hx,after_ok hy]

theorem Lockstep.of_error {x : EStateM ε σ α} {y : EStateM ε τ α} {s s' : σ} {t t' : τ} {e : ε}
    (hx : x s = .error e s') (hy : y t = .error e t') (h : R s' t') : Lockstep R x s y t := by
  refine ⟨(outcome_error hx).trans (outcome_error hy).symm,?_⟩
  rwa [after_error hx,after_error hy]

/-- Both return the same, or both raise the same. -/
theorem Lockstep.runs {x : EStateM ε σ α} {y : EStateM ε τ α} {s : σ} {t : τ}
    (h : Lockstep R x s y t) : (∃ a s' t', x s = .ok a s' ∧ y t = .ok a t' ∧ R s' t') ∨
      ∃ e s' t', x s = .error e s' ∧ y t = .error e t' ∧ R s' t' := by
  obtain ⟨hsame,hrel⟩ := h
  cases hx : x s with
  | ok a s' =>
    cases hy : y t with
    | ok b t' =>
      rw [outcome_ok hx,outcome_ok hy,Except.ok.injEq] at hsame
      rw [after_ok hx,after_ok hy] at hrel
      exact .inl ⟨a,s',t',rfl,by rw [hsame],hrel⟩
    | error e t' =>
      rw [outcome_ok hx,outcome_error hy] at hsame
      cases hsame
  | error e s' =>
    cases hy : y t with
    | ok b t' =>
      rw [outcome_error hx,outcome_ok hy] at hsame
      cases hsame
    | error e' t' =>
      rw [outcome_error hx,outcome_error hy,Except.error.injEq] at hsame
      rw [after_error hx,after_error hy] at hrel
      exact .inr ⟨e,s',t',rfl,by rw [hsame],hrel⟩

theorem Lockstep.bind {x : EStateM ε σ α} {y : EStateM ε τ α} {s : σ} {t : τ}
    {f : α → EStateM ε σ β} {g : α → EStateM ε τ β} (h : Lockstep R x s y t)
    (hfg : ∀ a s' t', R s' t' → Lockstep R (f a) s' (g a) t') :
    Lockstep R (x >>= f) s (y >>= g) t := by
  rcases h.runs with ⟨a,s',t',hx,hy,hrel⟩ | ⟨e,s',t',hx,hy,hrel⟩
  · have hnext := hfg a s' t' hrel
    unfold Lockstep outcome after at hnext ⊢
    rwa [bind_ok hx,bind_ok hy]
  · exact .of_error (bind_error hx) (bind_error hy) hrel

/-- Lockstep is a matter of what the calls do, not of how they are written. -/
theorem Lockstep.congr {x x' : EStateM ε σ α} {y y' : EStateM ε τ α} {s s' : σ} {t t' : τ}
    (h : Lockstep R x s y t) (hx : x' s' = x s) (hy : y' t' = y t) : Lockstep R x' s' y' t' := by
  unfold Lockstep outcome after at h ⊢
  rwa [hx,hy]

theorem lockstep_throw {s : σ} {t : τ} (e : ε) (h : R s t) :
    Lockstep R (throw e : EStateM ε σ α) s (throw e : EStateM ε τ α) t := ⟨rfl,h⟩

theorem lockstep_modify {f : σ → σ} {g : τ → τ} {s : σ} {t : τ} (h : R (f s) (g t)) :
    Lockstep R (modify f : EStateM ε σ Unit) s (modify g : EStateM ε τ Unit) t := ⟨rfl,h⟩

theorem Lockstep.get_bind {f : σ → EStateM ε σ α} {g : τ → EStateM ε τ α} {s : σ} {t : τ}
    (h : Lockstep R (f s) s (g t) t) : Lockstep R (get >>= f) s (get >>= g) t :=
  h.congr (bind_ok rfl) (bind_ok rfl)

theorem lockstep_self (x : EStateM ε σ α) (s : σ) : Lockstep Eq x s x s := ⟨rfl,rfl⟩

theorem Lockstep.ite {p : Prop} [Decidable p] {x x' : EStateM ε σ α} {y y' : EStateM ε τ α} {s : σ}
    {t : τ} (h : p → Lockstep R x s y t) (h' : ¬p → Lockstep R x' s y' t) :
    Lockstep R (if p then x else x') s (if p then y else y') t := by
  by_cases hp : p
  · rw [if_pos hp,if_pos hp]
    exact h hp
  · rw [if_neg hp,if_neg hp]
    exact h' hp

/-- Both calls return, and nobody looks at what. -/
theorem Lockstep.skip {β γ : Type} {x : EStateM ε σ β} {y : EStateM ε τ γ} {rest : EStateM ε σ α}
    {rest' : EStateM ε τ α} {s s' : σ} {t t' : τ} {b : β} {d : γ} (hx : x s = .ok b s')
    (hy : y t = .ok d t') (h : Lockstep R rest s' rest' t') :
    Lockstep R (x >>= fun _ => rest) s (y >>= fun _ => rest') t := h.congr (bind_ok hx) (bind_ok hy)

/-- Components in lockstep, in objects that are related again when the components are. -/
theorem Lockstep.focus {σ' τ' δ : Type} {Q : σ' → τ' → Prop} {part : σ → σ'} {put : σ' → σ → σ}
    {part' : τ → τ'} {put' : τ' → τ → τ} {wrap : δ → ε} {x : EStateM δ σ' α} {y : EStateM δ τ' α}
    {s : σ} {t : τ} (h : Lockstep Q x (part s) y (part' t))
    (hput : ∀ a b, Q a b → R (put a s) (put' b t)) :
    Lockstep R (focus part put wrap x) s (focus part' put' wrap y) t := by
  rcases h.runs with ⟨a,s',t',hx,hy,hrel⟩ | ⟨e,s',t',hx,hy,hrel⟩
  · exact .of_ok (focus_ok hx) (focus_ok hy) (hput _ _ hrel)
  · exact .of_error (focus_error hx) (focus_error hy) (hput _ _ hrel)

/-- The left object may finish with a change that the relation does not see. -/
theorem Lockstep.modify_left {x : EStateM ε σ α} {y : EStateM ε τ α} {s : σ} {t : τ} {f : σ → σ}
    (h : Lockstep R x s y t) (hf : ∀ s t, R s t → R (f s) t) :
    Lockstep R (do
      let a ← x
      modify f
      return a) s y t := by
  refine Lockstep.congr (h.bind (f := fun a => do
    modify f
    return a) (g := pure) (fun a s' t' h' => .of_ok rfl rfl (hf s' t' h'))) rfl ?_
  cases hy : y t with
  | ok a t' => exact (bind_ok hy).symm
  | error e t' => exact (bind_error hy).symm

variable {Op : Type}

/-- What the caller is told by the calls of a run. -/
def replies (exec : Op → EStateM ε σ α) : List Op → σ → List (Except ε α)
  | [], _ => []
  | op :: rest, s => outcome (exec op) s :: replies exec rest (after (exec op) s)

/-- Objects that make every step in lockstep make the whole run in lockstep. -/
theorem RunMeets.lockstep {exec : Op → EStateM ε σ α} {exec' : Op → EStateM ε τ α}
    {cond : Op → σ → Prop}
    (hstep : ∀ op s t, R s t → cond op s → Lockstep R (exec op) s (exec' op) t) {ops : List Op}
    {s : σ} {t : τ} (h : R s t) (hc : RunMeets exec cond ops s) :
    replies exec ops s = replies exec' ops t ∧ R (runAll exec ops s) (runAll exec' ops t) := by
  induction ops generalizing s t with
  | nil => exact ⟨rfl,h⟩
  | cons op rest ih =>
    obtain ⟨hsame,hrel⟩ := hstep op s t h hc.1
    obtain ⟨hreplies,hend⟩ := ih hrel hc.2
    exact ⟨by rw [replies,replies,hsame,hreplies],hend⟩

/-- Objects that stay in lockstep as long as `cond` holds, and report differently where it
fails, report alike in exactly the runs that meet `cond`. -/
theorem replies_eq_iff {exec : Op → EStateM ε σ α} {exec' : Op → EStateM ε τ α}
    {cond : Op → σ → Prop}
    (hstep : ∀ op s t, R s t → cond op s → Lockstep R (exec op) s (exec' op) t)
    (hdiff : ∀ op s t, R s t → ¬cond op s → outcome (exec op) s ≠ outcome (exec' op) t)
    (ops : List Op) {s : σ} {t : τ} (h : R s t) :
    replies exec ops s = replies exec' ops t ↔ RunMeets exec cond ops s := by
  constructor
  · intro hsame
    induction ops generalizing s t with
    | nil => trivial
    | cons op rest ih =>
      obtain ⟨hfirst,hrest⟩ := List.cons.inj hsame
      have hcond : cond op s := by
        by_contra hcond
        exact hdiff op s t h hcond hfirst
      exact ⟨hcond,ih (hstep op s t h hcond).2 hrest⟩
  · exact fun hc => (RunMeets.lockstep hstep h hc).1

end Lockstep

section Refinement
variable {Op A : Type}

/-- The abstract machine stays where it is when it rejects an operation. -/
def specRun (spec : Op → A → Option A) (ops : List Op) (a : A) : A :=
  ops.foldl (fun a op => (spec op a).getD a) a

@[simp] theorem specRun_nil (spec : Op → A → Option A) (a : A) : specRun spec [] a = a := rfl
@[simp] theorem specRun_cons (spec : Op → A → Option A) (op : Op) (ops : List Op) (a : A) :
    specRun spec (op :: ops) a = specRun spec ops ((spec op a).getD a) := rfl

/-- The object returns exactly where the abstract machine accepts, with the same effect
on the view; where it raises, the view is untouched and the exception is not a fault. -/
def Refines (exec : Op → EStateM ε σ α) (spec : Op → A → Option A) (view : σ → A)
    (I : σ → Prop) (fault : ε → Prop) : Prop :=
  ∀ op s, I s → Ensures (exec op) s
    (fun _ t => I t ∧ spec op (view s) = some (view t))
    (fun e t => I t ∧ spec op (view s) = none ∧ view t = view s ∧ ¬fault e)

variable {exec : Op → EStateM ε σ α} {spec : Op → A → Option A} {view : σ → A}
  {I : σ → Prop} {fault : ε → Prop}

theorem Refines.keeps (h : Refines exec spec view I fault) (op : Op) : Keeps I (exec op) :=
  fun s hs => ((h op s hs).mono (fun _ _ hp => hp.1) (fun _ _ hr => hr.1)).after

theorem Refines.view_after (h : Refines exec spec view I fault) (op : Op) {s : σ} (hs : I s) :
    view (after (exec op) s) = (spec op (view s)).getD (view s) := by
  have hop := h op s hs
  cases hx : exec op s with
  | ok a t =>
    rw [after_ok hx,(hop.ok hx).2]
    rfl
  | error e t =>
    rw [after_error hx,(hop.error hx).2.1]
    exact (hop.error hx).2.2.1

/-- The view of a run is the run of the abstract machine. -/
theorem Refines.run (h : Refines exec spec view I fault) (ops : List Op) {s : σ} (hs : I s) :
    I (runAll exec ops s) ∧ view (runAll exec ops s) = specRun spec ops (view s) := by
  refine ⟨runAll_keeps h.keeps ops hs,?_⟩
  induction ops generalizing s with
  | nil => rfl
  | cons op rest ih =>
    rw [runAll_cons,ih (h.keeps op s hs),h.view_after op hs,specRun_cons]

end Refinement
end CueBee.Raising
