import Mathlib.Data.Option.Basic

/-!
# Machines with partial steps

A machine is a step function that gives `none` for an event that cannot
happen in a state. `run` takes events one after the other. `Always` is
about every state of a run, `Along` about every step, and `collect` lists
what the steps contribute.

`run_invariant` is the induction every result about whole runs goes
through: what each step keeps, given that the step is one the run allows,
a run keeps.
-/

namespace Machine

variable {S E β : Type} (step : S → E → Option S)

def run (s : S) : List E → Option S
  | [] => some s
  | e :: rest => (step s e).bind fun s' => run s' rest

/-- Every state of the run has the property. -/
def Always (P : S → Prop) (s : S) : List E → Prop
  | [] => P s
  | e :: rest =>
      P s ∧ match step s e with
        | some s' => Always P s' rest
        | none => True

/-- Every step of the run is one that `P` allows. -/
def Along (P : S → E → S → Prop) (s : S) : List E → Prop
  | [] => True
  | e :: rest =>
      match step s e with
      | some s' => P s e s' ∧ Along P s' rest
      | none => True

/-- What the steps of the run contribute, in order. -/
def collect (f : S → E → List β) (s : S) : List E → List β
  | [] => []
  | e :: rest =>
      f s e ++ match step s e with
        | some s' => collect f s' rest
        | none => []

variable {step} {P : S → Prop} {Q R : S → E → S → Prop} {s s' : S} {e : E} {es : List E}

theorem run_cons_eq_some :
    run step s (e :: es) = some s' ↔ ∃ s₁, step s e = some s₁ ∧ run step s₁ es = some s' :=
  Option.bind_eq_some_iff

theorem run_append (hrun : run step s es = some s') (es' : List E) :
    run step s (es ++ es') = run step s' es' := by
  induction es generalizing s with
  | nil => rw [List.nil_append, Option.some.inj hrun]
  | cons e rest ih =>
      obtain ⟨s₁, hstep, hrest⟩ := run_cons_eq_some.mp hrun
      rw [List.cons_append, run, hstep]
      exact ih hrest

theorem along_of_forall (h : ∀ s e s', e ∈ es → step s e = some s' → Q s e s') :
    Along step Q s es := by
  induction es generalizing s with
  | nil => trivial
  | cons e rest ih =>
      rw [Along]
      cases hstep : step s e with
      | none => trivial
      | some s₁ =>
          exact ⟨h s e s₁ List.mem_cons_self hstep,
            ih fun s e s' he => h s e s' (List.mem_cons_of_mem _ he)⟩

instance Along.decidable [∀ s e s', Decidable (Q s e s')] :
    (s : S) → (es : List E) → Decidable (Along step Q s es)
  | _, [] => .isTrue trivial
  | s, e :: rest =>
      match h : step s e with
      | none => .isTrue (by rw [Along, h]; trivial)
      | some s' =>
          have := Along.decidable s' rest
          decidable_of_iff (Q s e s' ∧ Along step Q s' rest) (by rw [Along, h])

/-- What every allowed step keeps, a run of allowed steps keeps. -/
theorem run_invariant (hkeep : ∀ s e s', P s → step s e = some s' → Q s e s' → P s')
    (h : P s) (halong : Along step Q s es) (hrun : run step s es = some s') : P s' := by
  induction es generalizing s with
  | nil => exact Option.some.inj hrun ▸ h
  | cons e rest ih =>
      obtain ⟨s₁, hstep, hrest⟩ := run_cons_eq_some.mp hrun
      rw [Along, hstep] at halong
      exact ih (hkeep s e s₁ h hstep halong.1) halong.2 hrest

/-- What every step keeps, a run keeps. -/
theorem run_keeps (hkeep : ∀ s e s', P s → step s e = some s' → P s') (h : P s)
    (hrun : run step s es = some s') : P s' :=
  run_invariant (Q := fun _ _ _ => True) (fun s e s' h hstep _ => hkeep s e s' h hstep) h
    (along_of_forall fun _ _ _ _ _ => trivial) hrun

/-- A list that each event may extend by one extends by what the events
of a run give. -/
theorem run_history {X : S → List β} {f : E → Option β}
    (hextend : ∀ s e s', step s e = some s' → X s' = X s ++ (f e).toList)
    (hrun : run step s es = some s') : X s' = X s ++ es.filterMap f := by
  induction es generalizing s with
  | nil =>
      cases hrun
      exact (List.append_nil _).symm
  | cons e rest ih =>
      obtain ⟨s₁, hstep, hrest⟩ := run_cons_eq_some.mp hrun
      rw [ih hrest, hextend s e s₁ hstep, List.append_assoc]
      cases hf : f e with
      | none => rw [List.filterMap_cons_none hf]; rfl
      | some b => rw [List.filterMap_cons_some hf]; rfl

/-- If each step is a step of another machine on what `f` makes of the
states, or no step of it at all, then each run is a run of it. -/
theorem run_simulates {T F : Type} {step' : T → F → Option T} {f : S → T}
    (hsim : ∀ s e s', step s e = some s' → f s' = f s ∨ ∃ e', step' (f s) e' = some (f s'))
    (hrun : run step s es = some s') : ∃ es', run step' (f s) es' = some (f s') := by
  induction es generalizing s with
  | nil =>
      cases hrun
      exact ⟨[], rfl⟩
  | cons e rest ih =>
      obtain ⟨s₁, hstep, hrest⟩ := run_cons_eq_some.mp hrun
      obtain ⟨es', hes'⟩ := ih hrest
      rcases hsim s e s₁ hstep with hsame | ⟨e', he'⟩
      · exact ⟨es', hsame ▸ hes'⟩
      · exact ⟨e' :: es', run_cons_eq_some.mpr ⟨f s₁, he', hes'⟩⟩

theorem Along.and (hQ : Along step Q s es) (hR : Along step R s es) :
    Along step (fun s e s' => Q s e s' ∧ R s e s') s es := by
  induction es generalizing s with
  | nil => trivial
  | cons e rest ih =>
      rw [Along] at hQ hR ⊢
      cases hstep : step s e with
      | none => trivial
      | some s₁ =>
          rw [hstep] at hQ hR
          exact ⟨⟨hQ.1, hR.1⟩, ih hQ.2 hR.2⟩

/-- Two properties of steps that agree where an invariant holds, and of
which the second keeps it, hold along the same runs. -/
theorem along_congr
    (hiff : ∀ s e s', e ∈ es → P s → step s e = some s' → (Q s e s' ↔ R s e s'))
    (hkeep : ∀ s e s', e ∈ es → P s → step s e = some s' → R s e s' → P s') (h : P s) :
    Along step Q s es ↔ Along step R s es := by
  induction es generalizing s with
  | nil => exact Iff.rfl
  | cons e rest ih =>
      rw [Along, Along]
      cases hstep : step s e with
      | none => exact Iff.rfl
      | some s₁ =>
          have hiff₁ := hiff s e s₁ List.mem_cons_self h hstep
          have hrest (hR : R s e s₁) : Along step Q s₁ rest ↔ Along step R s₁ rest :=
            ih (fun s e s' he => hiff s e s' (List.mem_cons_of_mem _ he))
              (fun s e s' he => hkeep s e s' (List.mem_cons_of_mem _ he))
              (hkeep s e s₁ List.mem_cons_self h hstep hR)
          refine ⟨fun hQ => ?_, fun hR => ?_⟩
          · have hR := hiff₁.mp hQ.1
            exact ⟨hR, (hrest hR).mp hQ.2⟩
          · exact ⟨hiff₁.mpr hR.1, (hrest hR.1).mpr hR.2⟩

theorem Always.first (h : Always step P s es) : P s := by
  cases es with
  | nil => exact h
  | cons e rest => exact h.1

theorem Always.tail (h : Always step P s (e :: es)) (hstep : step s e = some s') :
    Always step P s' es := by
  rw [Always, hstep] at h
  exact h.2

theorem Always.last (h : Always step P s es) (hrun : run step s es = some s') : P s' := by
  induction es generalizing s with
  | nil => exact Option.some.inj hrun ▸ h
  | cons e rest ih =>
      obtain ⟨s₁, hstep, hrest⟩ := run_cons_eq_some.mp hrun
      exact ih (h.tail hstep) hrest

end Machine
