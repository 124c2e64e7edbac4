import Mathlib.Data.List.Induction

/-! # Runs

A run performs one action after another, so that its state is a fold over the list of actions. What
a run does is shown for all its beginnings, by induction on the beginning.
-/

set_option autoImplicit false

namespace VersionedTrie

variable {σ α : Type} {step : σ → α → σ} {s : σ} {a : α} {l pre : List α} {P : σ → Prop}

/-- What holds of the start and is kept by every step of a run holds of all its beginnings. -/
theorem foldl_induction {Q : List α → σ → Prop} (hstart : Q [] s)
    (hstep : ∀ pre a, pre ++ [a] <+: l → Q pre (pre.foldl step s) →
      Q (pre ++ [a]) (step (pre.foldl step s) a)) :
    ∀ pre, pre <+: l → Q pre (pre.foldl step s) := by
  intro pre
  induction pre using List.reverseRecOn with
  | nil => exact fun _ => hstart
  | append_singleton pre a ih =>
    intro hpre
    rw [List.foldl_append]
    exact hstep pre a hpre (ih ((List.prefix_append pre [a]).trans hpre))

/-- At every point of a run. -/
def Always (step : σ → α → σ) (P : σ → Prop) (s : σ) (l : List α) : Prop :=
  ∀ pre, pre <+: l → P (pre.foldl step s)

theorem always_of (hstart : P s)
    (hstep : ∀ pre a, pre ++ [a] <+: l → P (pre.foldl step s) → P (step (pre.foldl step s) a)) :
    Always step P s l :=
  foldl_induction (Q := fun _ s => P s) hstart hstep

theorem Always.last (h : Always step P s l) : P (l.foldl step s) := h l List.prefix_rfl

theorem Always.first (h : Always step P s l) : P s := h [] List.nil_prefix

theorem Always.before (h : Always step P s l) (hpre : pre <+: l) : Always step P s pre :=
  fun p hp => h p (hp.trans hpre)

theorem Always.around (h : Always step P s l) (hpre : pre ++ [a] <+: l) :
    P (pre.foldl step s) ∧ P (step (pre.foldl step s) a) := by
  refine ⟨h pre ((List.prefix_append pre [a]).trans hpre), ?_⟩
  have hafter := h _ hpre
  rwa [List.foldl_append] at hafter

theorem Always.tail (h : Always step P s (a :: l)) : Always step P (step s a) l :=
  fun p hp => h (a :: p) (List.cons_prefix_cons.mpr ⟨rfl, hp⟩)

/-- Before each action of a run. -/
def AtEach (step : σ → α → σ) (R : σ → α → Prop) (s : σ) (l : List α) : Prop :=
  ∀ pre a, pre ++ [a] <+: l → R (pre.foldl step s) a

section AtEach

variable {R : σ → α → Prop}

theorem atEach_nil : AtEach step R s [] := by
  intro pre a hpre
  rw [List.prefix_nil, List.append_eq_nil_iff] at hpre
  cases hpre.2

theorem atEach_cons : AtEach step R s (a :: l) ↔ R s a ∧ AtEach step R (step s a) l := by
  constructor
  · intro h
    exact ⟨h [] a (List.cons_prefix_cons.mpr ⟨rfl, List.nil_prefix⟩),
      fun pre b hpre => h (a :: pre) b (List.cons_prefix_cons.mpr ⟨rfl, hpre⟩)⟩
  · rintro ⟨hfirst, h⟩ pre b hpre
    cases pre with
    | nil =>
      obtain ⟨rfl, _⟩ := List.cons_prefix_cons.mp hpre
      exact hfirst
    | cons first pre =>
      obtain ⟨rfl, hrest⟩ := List.cons_prefix_cons.mp hpre
      exact h pre b hrest

/-- What holds at every action may be shown at each from what holds at the earlier ones. -/
theorem atEach_of (h : ∀ pre a, pre ++ [a] <+: l → AtEach step R s pre → R (pre.foldl step s) a) :
    AtEach step R s l := by
  suffices hall : ∀ pre, pre <+: l → AtEach step R s pre from hall l List.prefix_rfl
  intro pre
  induction pre using List.reverseRecOn with
  | nil => exact fun _ => atEach_nil
  | append_singleton pre a ih =>
    intro hpre p b hp
    have hbefore := ih ((List.prefix_append pre [a]).trans hpre)
    obtain he | hp := List.prefix_concat_iff.mp hp
    · obtain ⟨rfl, hlast⟩ := List.append_inj' he rfl
      obtain rfl := List.singleton_inj.mp hlast
      exact h p b hpre hbefore
    · exact hbefore p b hp

instance decidableAtEach [∀ s a, Decidable (R s a)] :
    (s : σ) → (l : List α) → Decidable (AtEach step R s l)
  | _, [] => isTrue atEach_nil
  | s, a :: l =>
    have := decidableAtEach (step s a) l
    decidable_of_iff _ atEach_cons.symm

end AtEach

end VersionedTrie
