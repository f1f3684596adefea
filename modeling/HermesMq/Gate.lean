import Mathlib.Data.List.Basic

/-!
# A gate in front of a sequence of frames

A connection reads frames one after the other and serves some of them. The
gate opens with the first frame that can be decoded, if that frame presents
what the gate asks for, and otherwise the connection is over. `Gate` is the
invariant of such a connection: how its frames begin, and that each frame
it serves has one before it that opened the gate.

A connection is given by its frames, by what it serves, and by two flags:
`authed`, with which it decides, and `stopped`, after which it reads no
frame. `Gate.frame` is about a frame that is read, `Gate.move` about all
else that happens.
-/

variable {F : Type} {presents decodable : F → Prop}

/-- The frames of a connection, with the gate closed, open, or shut for
good. -/
inductive GateFrames (presents decodable : F → Prop) (authed stopped : Bool) : List F → Prop
  | waiting {fs : List F} (ha : authed = false) (h : ∀ f ∈ fs, ¬decodable f) :
      GateFrames presents decodable authed stopped fs
  | admitted {before after : List F} {f : F} (h : ∀ g ∈ before, ¬decodable g) (hf : presents f) :
      GateFrames presents decodable authed stopped (before ++ f :: after)
  | refused {before : List F} {f : F} (ha : authed = false) (hs : stopped = true)
      (h : ∀ g ∈ before, ¬decodable g) (hf : decodable f) (hn : ¬presents f) :
      GateFrames presents decodable authed stopped (before ++ [f])

structure Gate (presents decodable : F → Prop) (fs : List F) (serves : Nat → Prop)
    (authed stopped : Bool) : Prop where
  frames : GateFrames presents decodable authed stopped fs
  served : ∀ i, serves i → ∃ j < i, ∃ f, fs[j]? = some f ∧ presents f

/-- What the gate is for: nothing is served before a frame that opens it,
and the first frame that can be decoded, if it does not, is the last. -/
structure Gated (presents decodable : F → Prop) (fs : List F) (serves : Nat → Prop) : Prop where
  served : ∀ i, serves i → ∃ j < i, ∃ f, fs[j]? = some f ∧ presents f
  last : ∀ before f after, fs = before ++ f :: after → decodable f →
    (∀ g ∈ before ++ [f], ¬presents g) → after = []

namespace Gate

variable {fs : List F} {serves serves' : Nat → Prop} {authed authed' stopped stopped' : Bool}

theorem start (authed_eq : authed = false) (hserves : ∀ i, ¬serves i) :
    Gate presents decodable [] serves authed stopped where
  frames := .waiting authed_eq fun _ h => absurd h List.not_mem_nil
  served := fun i h => absurd h (hserves i)

/-- A step that reads no frame. -/
theorem move (h : Gate presents decodable fs serves authed stopped)
    (hserves : ∀ i, serves' i → serves i) (hauthed : authed' = true → authed = true)
    (hstopped : stopped = true → stopped' = true) :
    Gate presents decodable fs serves' authed' stopped' where
  frames := by
    have hclosed : authed = false → authed' = false := fun ha =>
      Bool.eq_false_iff.mpr fun ha' => Bool.eq_false_iff.mp ha (hauthed ha')
    cases h.frames with
    | waiting ha hfs => exact .waiting (hclosed ha) hfs
    | admitted hbefore hf => exact .admitted hbefore hf
    | refused ha hs hbefore hf hn => exact .refused (hclosed ha) (hstopped hs) hbefore hf hn
  served := fun i hi => h.served i (hserves i hi)

/-- With the flag set, a frame that opened the gate is among the frames. -/
theorem opened (h : Gate presents decodable fs serves authed stopped) (ha : authed = true) :
    ∃ j < fs.length, ∃ f, fs[j]? = some f ∧ presents f := by
  cases h.frames with
  | waiting hclosed => rw [ha] at hclosed; cases hclosed
  | @admitted before after f _ hf =>
      refine ⟨before.length, ?_, f, ?_, hf⟩
      · rw [List.length_append, List.length_cons]
        omega
      · rw [List.getElem?_append_right (Nat.le_refl _), Nat.sub_self]
        rfl
  | refused hclosed => rw [ha] at hclosed; cases hclosed

/-- A frame is read. It may be served if the flag was set, it may set the
flag if it presents what is asked for, and it stops the connection if it
can be decoded and neither holds. -/
theorem frame (h : Gate presents decodable fs serves authed false) (f : F)
    (hserves : ∀ i, serves' i → serves i ∨ (i = fs.length ∧ authed = true))
    (hauthed : authed' = true → authed = true ∨ presents f)
    (hstopped : authed = false → decodable f → ¬presents f → stopped' = true) :
    Gate presents decodable (fs ++ [f]) serves' authed' stopped' where
  frames := by
    cases h.frames with
    | waiting ha hfs =>
        have hclosed : ¬presents f → authed' = false := fun hn =>
          Bool.eq_false_iff.mpr fun ha' =>
            (hauthed ha').elim (fun hset => by rw [ha] at hset; cases hset) hn
        by_cases hf : presents f
        · exact .admitted hfs hf
        · by_cases hdec : decodable f
          · exact .refused (hclosed hf) (hstopped ha hdec hf) hfs hdec hf
          · refine .waiting (hclosed hf) fun g hg => ?_
            rcases List.mem_append.mp hg with hold | hnew
            · exact hfs g hold
            · rw [List.mem_singleton.mp hnew]
              exact hdec
    | admitted hbefore hf =>
        rw [List.append_assoc, List.cons_append]
        exact .admitted hbefore hf
    | refused _ hs => cases hs
  served := fun i hi => by
    have hlift : ∀ {j : Nat} {g : F}, fs[j]? = some g → (fs ++ [f])[j]? = some g :=
      fun hj => by rw [List.getElem?_append_left (List.getElem?_eq_some_iff.mp hj).1, hj]
    rcases hserves i hi with hold | ⟨rfl, ha⟩
    · obtain ⟨j, hj, g, hg, hp⟩ := h.served i hold
      exact ⟨j, hj, g, hlift hg, hp⟩
    · obtain ⟨j, hj, g, hg, hp⟩ := h.opened ha
      exact ⟨j, hj, g, hlift hg, hp⟩

theorem last (h : Gate presents decodable fs serves authed stopped) {before after : List F} {f : F}
    (hfs : fs = before ++ f :: after) (hf : decodable f)
    (hnone : ∀ g ∈ before ++ [f], ¬presents g) : after = [] := by
  -- `f` is not among frames that cannot be decoded, so it does not come before the gate's frame
  have hlater : ∀ {first x : List F}, (∀ g ∈ first, ¬decodable g) → first = before ++ x →
      ∀ {y : List F}, x ++ y = f :: after → x = [] := by
    intro first x hfirst heq y hxy
    cases x with
    | nil => rfl
    | cons g x =>
        obtain ⟨rfl, -⟩ := List.cons.inj hxy
        exact absurd hf (hfirst g (heq ▸ List.mem_append_right _ List.mem_cons_self))
  cases h.frames with
  | waiting _ hall => exact absurd hf (hall f (hfs ▸ List.mem_append_right _ List.mem_cons_self))
  | @admitted first rest g hfirst hg =>
      rcases List.append_eq_append_iff.mp hfs with ⟨x, rfl, hx⟩ | ⟨x, heq, hx⟩
      · refine absurd hg (hnone g ?_)
        cases x with
        | nil =>
            obtain ⟨rfl, -⟩ := List.cons.inj hx
            exact List.mem_append_right _ List.mem_cons_self
        | cons g' x =>
            obtain ⟨rfl, -⟩ := List.cons.inj hx
            exact List.mem_append_left _ (List.mem_append_right _ List.mem_cons_self)
      · obtain rfl := hlater hfirst heq hx.symm
        obtain ⟨rfl, -⟩ := List.cons.inj hx
        exact absurd hg (hnone f (List.mem_append_right _ List.mem_cons_self))
  | @refused first g _ _ hfirst _ _ =>
      rcases List.append_eq_append_iff.mp hfs with ⟨x, rfl, hx⟩ | ⟨x, heq, hx⟩
      · cases x with
        | nil => exact (List.cons.inj hx).2.symm
        | cons g' x => exact absurd (List.cons.inj hx).2.symm (by simp)
      · obtain rfl := hlater hfirst heq hx.symm
        exact (List.cons.inj hx).2

theorem gated (h : Gate presents decodable fs serves authed stopped) :
    Gated presents decodable fs serves where
  served := h.served
  last := fun _ _ _ hfs hf hnone => h.last hfs hf hnone

end Gate
