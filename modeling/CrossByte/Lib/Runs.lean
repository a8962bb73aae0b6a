import Mathlib.Tactic

/-!
# Runs of a step function

A system is a step function `step : σ → α → σ`; a run is the state reached after
a list of inputs.  Everything the environment decides is part of an input, so one
deterministic function covers every interleaving.

`Along step ok s l` says that every step of the run of `l` from `s` meets the
condition `ok` in the state it is taken from.  The three rules are what proofs
about runs use: an invariant kept by every step, one kept by the steps that meet
a condition, and a relation between two systems fed the same inputs.
-/

namespace Runs

variable {σ τ α : Type*}

/-- The state after a list of inputs. -/
def run (step : σ → α → σ) (s : σ) (l : List α) : σ := l.foldl step s

variable {step : σ → α → σ} {ok : σ → α → Prop} {P : σ → Prop} {s : σ} {a : α} {l : List α}

@[simp] theorem run_nil : run step s [] = s := rfl

@[simp] theorem run_cons : run step s (a :: l) = run step (step s a) l := rfl

theorem run_append (l l' : List α) : run step s (l ++ l') = run step (run step s l) l' :=
  List.foldl_append

theorem run_concat (l : List α) (a : α) : run step s (l ++ [a]) = step (run step s l) a := by
  rw [run_append]; rfl

/-- Every step of the run meets `ok` in the state it is taken from. -/
def Along (step : σ → α → σ) (ok : σ → α → Prop) : σ → List α → Prop
  | _, [] => True
  | s, a :: l => ok s a ∧ Along step ok (step s a) l

@[simp] theorem along_nil : Along step ok s [] := trivial

@[simp] theorem along_cons :
    Along step ok s (a :: l) ↔ ok s a ∧ Along step ok (step s a) l := Iff.rfl

theorem Along.imp {ok' : σ → α → Prop} (h : Along step ok s l) (hok : ∀ s a, ok s a → ok' s a) :
    Along step ok' s l := by
  induction l generalizing s with
  | nil => trivial
  | cons a l ih => exact ⟨hok s a h.1, ih h.2⟩

theorem along_of_forall_mem {q : α → Prop} (h : ∀ a ∈ l, q a) : Along step (fun _ => q) s l := by
  induction l generalizing s with
  | nil => trivial
  | cons a l ih => exact ⟨h a List.mem_cons_self, ih fun b hb => h b (List.mem_cons_of_mem _ hb)⟩

/-- Where an input of a list that was added to stands: last, or where it stood. -/
theorem split_concat {x : α} {before after : List α} (h : l ++ [a] = before ++ x :: after) :
    l = before ∧ a = x ∧ after = [] ∨ ∃ rest, after = rest ++ [a] ∧ l = before ++ x :: rest := by
  obtain rfl | ⟨rest, b, rfl⟩ := List.eq_nil_or_concat' after
  · obtain ⟨rfl, h⟩ := List.append_inj' h rfl
    exact .inl ⟨rfl, by simpa using h, rfl⟩
  · have h : l ++ [a] = (before ++ x :: rest) ++ [b] := by simpa using h
    obtain ⟨rfl, h⟩ := List.append_inj' h rfl
    exact .inr ⟨rest, by simpa using h.symm, rfl⟩

theorem along_append (l l' : List α) :
    Along step ok s (l ++ l') ↔ Along step ok s l ∧ Along step ok (run step s l) l' := by
  induction l generalizing s with
  | nil => simp
  | cons a l ih => simp [ih, and_assoc]

theorem along_concat (l : List α) (a : α) :
    Along step ok s (l ++ [a]) ↔ Along step ok s l ∧ ok (run step s l) a := by
  simp [along_append]

instance [∀ s a, Decidable (ok s a)] : ∀ s l, Decidable (Along step ok s l)
  | _, [] => isTrue trivial
  | s, a :: l =>
    have := instDecidableAlong (step s a) l
    inferInstanceAs (Decidable (ok s a ∧ Along step ok (step s a) l))

/-- What every step keeps holds after every run. -/
theorem run_invariant (hs : P s) (hstep : ∀ s a, P s → P (step s a)) (l : List α) :
    P (run step s l) := by
  induction l generalizing s with
  | nil => exact hs
  | cons a l ih => exact ih (hstep s a hs)

/-- What every step that meets `ok` keeps holds after every run of such steps. -/
theorem run_invariant_along (hs : P s) (hstep : ∀ s a, P s → ok s a → P (step s a))
    (hl : Along step ok s l) : P (run step s l) := by
  induction l generalizing s with
  | nil => exact hs
  | cons a l ih => exact ih (hstep s a hs hl.1) hl.2

/-- Two systems fed the same inputs stay related, if every step keeps them so. -/
theorem run_simulation {step' : τ → α → τ} {R : σ → τ → Prop} {t : τ} (hst : R s t)
    (hstep : ∀ s t a, R s t → ok s a → R (step s a) (step' t a))
    (hl : Along step ok s l) : R (run step s l) (run step' t l) := by
  induction l generalizing s t with
  | nil => exact hst
  | cons a l ih => exact ih (hstep s t a hst hl.1) hl.2

/-- A step from related states keeps them related exactly when it meets `ok`; then all the
states of a run are related exactly when all its steps meet `ok`. -/
theorem forall_prefix_iff_along {step' : τ → α → τ} {Q R : σ → τ → Prop} {t : τ}
    (hQ : Q s t) (hR : R s t)
    (hQstep : ∀ s t a, Q s t → Q (step s a) (step' t a))
    (hstep : ∀ s t a, Q s t → R s t → (R (step s a) (step' t a) ↔ ok s a)) (l : List α) :
    (∀ p, p <+: l → R (run step s p) (run step' t p)) ↔ Along step ok s l := by
  induction l generalizing s t with
  | nil => simp [hR]
  | cons a l ih =>
    rw [along_cons, ← hstep s t a hQ hR]
    constructor
    · intro h
      have ha : R (step s a) (step' t a) := h [a] (by simp)
      exact ⟨ha, (ih (hQstep s t a hQ) ha).1 fun p hp => h (a :: p) (by simpa using hp)⟩
    · rintro ⟨ha, hl⟩ p hp
      rcases List.prefix_cons_iff.1 hp with rfl | ⟨q, rfl, hq⟩
      · exact hR
      · exact (ih (hQstep s t a hQ) ha).2 hl q hq

end Runs
