import Mathlib.Data.List.Basic

/-! # Runs that may fail

    A step gives a new state or an error, and a run is `List.foldlM` of a step
    over a list of inputs.  `Ends allowed x P` says that `x` ends in a value with
    `P` or in an error that is allowed.  A run ends so when its steps keep an
    invariant, which may look at the inputs still to come (`ends_foldlM`). -/

namespace Execution

variable {ε α β σ : Type}

/-! ## One computation -/

/-- It ends in a value with `P`, or in an allowed error. -/
def Ends (allowed : ε → Prop) (x : Except ε α) (P : α → Prop) : Prop :=
  match x with
  | .ok a => P a
  | .error f => allowed f

section Ends

variable {allowed : ε → Prop} {x : Except ε α} {P Q : α → Prop}

theorem ends_of_eq_ok {a : α} (h : x = .ok a) (hp : P a) : Ends allowed x P := by
  subst h
  exact hp

theorem Ends.bind {f : α → Except ε β} {R : β → Prop} (h : Ends allowed x P)
    (hf : ∀ a, P a → Ends allowed (f a) R) : Ends allowed (x >>= f) R := by
  cases x with
  | error e => exact h
  | ok a => exact hf a h

/-- The same, where the second computation is known to follow the first. -/
theorem Ends.bind_eq {f : α → Except ε β} {R : β → Prop} (h : Ends allowed x P)
    (hf : ∀ a, x = .ok a → P a → Ends allowed (f a) R) : Ends allowed (x >>= f) R := by
  cases x with
  | error e => exact h
  | ok a => exact hf a rfl h

theorem Ends.mono (h : Ends allowed x P) (hpq : ∀ a, P a → Q a) : Ends allowed x Q := by
  cases x with
  | error e => exact h
  | ok a => exact hpq a h

theorem Ends.and (h : Ends allowed x P) (h' : Ends allowed x Q) :
    Ends allowed x (fun a => P a ∧ Q a) := by
  cases x with
  | error e => exact h
  | ok a => exact ⟨h, h'⟩

/-- A computation that ended in a value did so with `P`. -/
theorem Ends.of_eq_ok {a : α} (h : Ends allowed x P) (hx : x = .ok a) : P a := by
  subst hx
  exact h

end Ends

/-- It ends in a value with `P`. -/
def Yields (x : Except ε α) (P : α → Prop) : Prop :=
  match x with
  | .ok a => P a
  | .error _ => False

instance (x : Except ε α) (P : α → Prop) [DecidablePred P] : Decidable (Yields x P) :=
  match x with
  | .ok a => inferInstanceAs (Decidable (P a))
  | .error _ => isFalse not_false

theorem Yields.of_eq_ok {x : Except ε α} {P : α → Prop} {a : α} (h : Yields x P)
    (hx : x = .ok a) : P a := by
  subst hx
  exact h

theorem Yields.ends {allowed : ε → Prop} {x : Except ε α} {P : α → Prop} (h : Yields x P) :
    Ends allowed x P := by
  cases x with
  | error f => exact h.elim
  | ok a => exact h

/-- A computation that does end in a value does so with `P`. -/
theorem Ends.yields {allowed : ε → Prop} {x : Except ε α} {P Q : α → Prop} (h : Ends allowed x P)
    (hx : Yields x Q) : Yields x P := by
  cases x with
  | error f => exact hx.elim
  | ok a => exact h

/-- A list of computations that end in values. -/
theorem mapM_of_forall₂ {f : α → Except ε β} {l : List α} {m : List β}
    (h : List.Forall₂ (fun a b => f a = .ok b) l m) : l.mapM f = .ok m := by
  induction h with
  | nil => rfl
  | cons hab _ ih =>
      rw [List.mapM_cons, hab, ih]
      rfl

/-! ## Runs -/

/-- A condition holds before every step of a run. -/
def Meets (step : σ → α → Except ε σ) (ok : σ → α → Prop) : σ → List α → Prop
  | _, [] => True
  | s, a :: as => ok s a ∧ ∀ s', step s a = .ok s' → Meets step ok s' as

theorem meets_of_forall {step : σ → α → Except ε σ} {ok : σ → α → Prop} (h : ∀ s a, ok s a) :
    ∀ (as : List α) (s : σ), Meets step ok s as := by
  intro as
  induction as with
  | nil => exact fun _ => trivial
  | cons a as ih => exact fun s => ⟨h s a, fun s' _ => ih s'⟩

/-- A condition on a run is one on its first part, and on what comes after. -/
theorem Meets.append {step : σ → α → Except ε σ} {ok : σ → α → Prop} :
    ∀ {as bs : List α} {s : σ}, Meets step ok s (as ++ bs) →
      Meets step ok s as ∧ ∀ s', as.foldlM step s = .ok s' → Meets step ok s' bs := by
  intro as
  induction as with
  | nil =>
      intro bs s h
      exact ⟨trivial, fun s' hs' => Except.ok.inj hs' ▸ h⟩
  | cons a as ih =>
      intro bs s h
      refine ⟨⟨h.1, fun s' hs' => (ih (h.2 s' hs')).1⟩, ?_⟩
      intro s' hs'
      rw [List.foldlM_cons] at hs'
      cases hs : step s a with
      | error f =>
          rw [hs] at hs'
          cases hs'
      | ok s₁ =>
          rw [hs] at hs'
          exact (ih (h.2 s₁ hs)).2 s' hs'

/-- Some first part of the inputs leads to this state. -/
def Passes (step : σ → α → Except ε σ) (s : σ) (as : List α) (s' : σ) : Prop :=
  ∃ bs cs, as = bs ++ cs ∧ bs.foldlM step s = .ok s'

/-- A prefix of a run is empty, or it is its first step and a prefix of the rest. -/
theorem prefix_cons_iff {a : α} {as : List α} {Q : List α → Prop} :
    (∀ bs, bs <+: a :: as → Q bs) ↔ Q [] ∧ ∀ bs, bs <+: as → Q (a :: bs) := by
  constructor
  · intro h
    refine ⟨h [] List.nil_prefix, ?_⟩
    intro bs hbs
    exact h (a :: bs) (List.prefix_cons_inj a |>.mpr hbs)
  · rintro ⟨hnil, hcons⟩ bs hbs
    cases bs with
    | nil => exact hnil
    | cons b bs =>
        obtain ⟨rfl, hbs'⟩ := List.cons_prefix_cons.mp hbs
        exact hcons bs hbs'

/-- **A property after every part of a run** is a condition on the steps that
    return, when it is one of each step.  The property may follow the run
    through a state of its own, which `δ` moves, and the invariant may look at
    the inputs still to come. -/
theorem prefixes_iff_meets {γ : Type} {step : σ → α → Except ε σ} {δ : γ → α → γ}
    {I : List α → γ → σ → Prop} {P : γ → σ → Prop} {ok : σ → α → Prop}
    (hstep : ∀ {a : α} {as : List α} {g : γ} {s s' : σ}, I (a :: as) g s → P g s →
      step s a = .ok s' → I as (δ g a) s' ∧ (P (δ g a) s' ↔ ok s a)) :
    ∀ (as : List α) {g : γ} {s : σ}, I as g s → P g s →
      ((∀ bs, bs <+: as → ∀ s', bs.foldlM step s = .ok s' → P (bs.foldl δ g) s')
        ↔ Meets step (fun s a => ∀ s', step s a = .ok s' → ok s a) s as) := by
  intro as
  induction as with
  | nil =>
      intro g s _ hp
      refine iff_of_true ?_ trivial
      intro bs hbs s' hrun
      obtain rfl := List.prefix_nil.mp hbs
      obtain rfl := Except.ok.inj hrun
      exact hp
  | cons a as ih =>
      intro g s hi hp
      have hnil : ∀ s', ([] : List α).foldlM step s = .ok s' → P ([].foldl δ g) s' := by
        intro s' hrun
        obtain rfl := Except.ok.inj hrun
        exact hp
      rw [prefix_cons_iff (Q := fun bs =>
        ∀ s', bs.foldlM step s = .ok s' → P (bs.foldl δ g) s')]
      constructor
      · rintro ⟨-, h⟩
        have hnext : ∀ s₁, step s a = .ok s₁ → P (δ g a) s₁ := by
          intro s₁ hs
          refine h [] List.nil_prefix s₁ ?_
          rw [List.foldlM_cons, hs]
          rfl
        refine ⟨fun s₁ hs => (hstep hi hp hs).2.mp (hnext s₁ hs), ?_⟩
        intro s₁ hs
        refine (ih (hstep hi hp hs).1 (hnext s₁ hs)).mp ?_
        intro bs hbs s' hrun
        refine h bs hbs s' ?_
        rw [List.foldlM_cons, hs]
        exact hrun
      · rintro ⟨hok, hmeets⟩
        refine ⟨hnil, ?_⟩
        intro bs hbs s' hrun
        rw [List.foldlM_cons] at hrun
        cases hs : step s a with
        | error f =>
            rw [hs] at hrun
            cases hrun
        | ok s₁ =>
            rw [hs] at hrun
            obtain ⟨hi₁, hiff⟩ := hstep hi hp hs
            exact (ih hi₁ (hiff.mpr (hok s₁ hs))).mpr (hmeets s₁ hs) bs hbs s' hrun

/-- **A property of every state on the way** is a condition on the steps that
    return, when it is one of each step. -/
theorem always_iff_meets {step : σ → α → Except ε σ} {I P : σ → Prop} {ok : σ → α → Prop}
    {allowed : α → Prop}
    (hstep : ∀ {s s' : σ} {a : α}, allowed a → I s → P s → step s a = .ok s' →
      I s' ∧ (P s' ↔ ok s a)) :
    ∀ (as : List α) {s : σ}, (∀ a ∈ as, allowed a) → I s → P s →
      ((∀ s', Passes step s as s' → P s')
        ↔ Meets step (fun s a => ∀ s', step s a = .ok s' → ok s a) s as) := by
  intro as s hall hi hp
  let J : List α → σ → Prop := fun as s => (∀ a ∈ as, allowed a) ∧ I s
  have hJ : ∀ {a : α} {as : List α} {s s' : σ}, J (a :: as) s → P s → step s a = .ok s' →
      J as s' ∧ (P s' ↔ ok s a) := by
    rintro a as s s' ⟨hall, hi⟩ hp hs
    obtain ⟨hi', hok⟩ := hstep (hall a List.mem_cons_self) hi hp hs
    exact ⟨⟨fun b hb => hall b (List.mem_cons_of_mem _ hb), hi'⟩, hok⟩
  have hiff := @prefixes_iff_meets ε α σ Unit step (fun g _ => g) (fun as _ s => J as s)
    (fun _ s => P s) ok hJ as () s ⟨hall, hi⟩ hp
  rw [← hiff]
  constructor
  · rintro h bs ⟨cs, rfl⟩ s' hrun
    exact h s' ⟨bs, cs, rfl, hrun⟩
  · rintro h s' ⟨bs, cs, rfl, hrun⟩
    exact h bs (List.prefix_append bs cs) s' hrun

/-- A test that succeeds before every step of a run. -/
def checkAll (step : σ → α → Except ε σ) (p : σ → α → Bool) : σ → List α → Bool
  | _, [] => true
  | s, a :: as => p s a && match step s a with
      | .ok s' => checkAll step p s' as
      | .error _ => true

theorem meets_of_checkAll {step : σ → α → Except ε σ} {p : σ → α → Bool} {ok : σ → α → Prop}
    (hp : ∀ s a, p s a = true → ok s a) :
    ∀ {as : List α} {s : σ}, checkAll step p s as = true → Meets step ok s as := by
  intro as
  induction as with
  | nil =>
      intro s _
      trivial
  | cons a as ih =>
      intro s h
      rw [checkAll, Bool.and_eq_true] at h
      refine ⟨hp s a h.1, ?_⟩
      intro s' hs'
      have hrest := h.2
      rw [hs'] at hrest
      exact ih hrest

/-- **A run keeps what its steps keep**, while its condition holds. -/
theorem ends_foldlM {allowed : ε → Prop} {step : σ → α → Except ε σ} {ok : σ → α → Prop}
    (I : List α → σ → Prop)
    (hstep : ∀ {a : α} {as : List α} {s : σ}, I (a :: as) s → ok s a →
      Ends allowed (step s a) (I as)) :
    ∀ (as : List α) {s : σ}, Meets step ok s as → I as s →
      Ends allowed (as.foldlM step s) (I []) := by
  intro as
  induction as with
  | nil =>
      intro s _ hi
      exact hi
  | cons a as ih =>
      intro s hmeets hi
      have hrun := hstep hi hmeets.1
      rw [List.foldlM_cons]
      cases hs : step s a with
      | error f =>
          rw [hs] at hrun
          exact hrun
      | ok s' =>
          rw [hs] at hrun
          exact ih (hmeets.2 s' hs) hrun

/-- **A step that is taken over and over gets there**, when it uses up one of the
    steps that are left wherever it has not arrived. -/
theorem ends_replicate {allowed : ε → Prop} {step : σ → α → Except ε σ} {a : α}
    {I : Nat → σ → Prop} {goal : σ → Prop}
    (hstep : ∀ {n : Nat} {s : σ}, I n s →
      goal s ∨ ∃ m, n = m + 1 ∧ Ends allowed (step s a) (I m)) :
    ∀ (n : Nat) {s : σ}, I n s →
      ∃ k, k ≤ n ∧ Ends allowed ((List.replicate k a).foldlM step s) goal := by
  intro n
  induction n with
  | zero =>
      intro s hi
      rcases hstep hi with hgoal | ⟨m, hm, -⟩
      · exact ⟨0, Nat.le_refl 0, hgoal⟩
      · cases hm
  | succ n ih =>
      intro s hi
      rcases hstep hi with hgoal | ⟨m, hm, hrun⟩
      · exact ⟨0, Nat.zero_le _, hgoal⟩
      · obtain rfl := Nat.succ.inj hm
        cases hs : step s a with
        | error f =>
            rw [hs] at hrun
            refine ⟨1, Nat.succ_le_succ (Nat.zero_le n), ?_⟩
            rw [List.replicate_one, List.foldlM_cons, hs]
            exact hrun
        | ok s' =>
            rw [hs] at hrun
            obtain ⟨k, hk, hend⟩ := ih hrun
            refine ⟨k + 1, Nat.succ_le_succ hk, ?_⟩
            rw [List.replicate_succ, List.foldlM_cons, hs]
            exact hend

end Execution
