import Mathlib.Data.List.Basic

/-!
Deterministic machines that emit a list of outputs at every step.

A run is a left-to-right fold.  `AllSteps` says that every step of a run is
taken in a state where a given condition on the state and the input holds, and
`AllStates` that every state of a run, the first one included, has a property.
The rules below reduce a statement about whole runs to one about a single step.
-/

namespace WgNx.OutputMachine

variable {σ α ε : Type*} (step : σ → α → σ × List ε)

/-- The state after a list of inputs, and all outputs in order. -/
def run : σ → List α → σ × List ε
  | s, [] => (s, [])
  | s, a :: as =>
      ((run (step s a).1 as).1, (step s a).2 ++ (run (step s a).1 as).2)

/-- Every input of the run is taken in a state where `Q` holds of the two. -/
def AllSteps (Q : σ → α → Prop) : σ → List α → Prop
  | _, [] => True
  | s, a :: as => Q s a ∧ AllSteps Q (step s a).1 as

instance decidableAllSteps (Q : σ → α → Prop) [∀ s a, Decidable (Q s a)] :
    ∀ s as, Decidable (AllSteps step Q s as)
  | _, [] => isTrue trivial
  | s, a :: as =>
      have := decidableAllSteps Q (step s a).1 as
      inferInstanceAs (Decidable (_ ∧ _))

/-- Every state of the run has `R`. -/
def AllStates (R : σ → Prop) : σ → List α → Prop
  | s, [] => R s
  | s, a :: as => R s ∧ AllStates R (step s a).1 as

theorem AllStates.head {step : σ → α → σ × List ε} {R : σ → Prop} {s : σ} {as : List α}
    (h : AllStates step R s as) : R s := by
  cases as with
  | nil => exact h
  | cons a as => exact h.1

theorem AllStates.of_invariant {step : σ → α → σ × List ε} {I R : σ → Prop}
    (hinv : ∀ s a, I s → I (step s a).1) (h : ∀ s, I s → R s) {s : σ} (hinit : I s)
    (as : List α) : AllStates step R s as := by
  induction as generalizing s with
  | nil => exact h s hinit
  | cons a as ih => exact ⟨h s hinit, ih (hinv s a hinit)⟩

theorem AllStates.last {step : σ → α → σ × List ε} {R : σ → Prop} {s : σ} {as : List α}
    (h : AllStates step R s as) : R (run step s as).1 := by
  induction as generalizing s with
  | nil => exact h
  | cons a as ih => exact ih h.2

/-- Where only an allowed step reaches a state with `R`. -/
theorem AllStates.allSteps {step : σ → α → σ × List ε} {I R : σ → Prop} {Q : σ → α → Prop}
    (hinv : ∀ s a, I s → I (step s a).1) (hallowed : ∀ s a, I s → R (step s a).1 → Q s a)
    {s : σ} {as : List α} (hinit : I s) (h : AllStates step R s as) : AllSteps step Q s as := by
  induction as generalizing s with
  | nil => trivial
  | cons a as ih => exact ⟨hallowed s a hinit h.2.head, ih (hinv s a hinit) h.2⟩

/-- Where a state without `R` never gets it back, the last state decides. -/
theorem allStates_iff_last {step : σ → α → σ × List ε} {I R : σ → Prop}
    (hinv : ∀ s a, I s → I (step s a).1) (hback : ∀ s a, I s → R (step s a).1 → R s) {s : σ}
    (hinit : I s) (as : List α) : AllStates step R s as ↔ R (run step s as).1 := by
  refine ⟨AllStates.last, fun hlast => ?_⟩
  induction as generalizing s with
  | nil => exact hlast
  | cons a as ih =>
      have hrest := ih (hinv s a hinit) hlast
      exact ⟨hback s a hinit hrest.head, hrest⟩

@[simp] theorem run_nil (s : σ) : run step s [] = (s, []) := rfl

@[simp] theorem run_cons_state (s : σ) (a : α) (as : List α) :
    (run step s (a :: as)).1 = (run step (step s a).1 as).1 := rfl

@[simp] theorem run_cons_outputs (s : σ) (a : α) (as : List α) :
    (run step s (a :: as)).2 =
      (step s a).2 ++ (run step (step s a).1 as).2 := rfl

theorem run_append (s : σ) (as bs : List α) :
    run step s (as ++ bs) =
      ((run step (run step s as).1 bs).1,
        (run step s as).2 ++ (run step (run step s as).1 bs).2) := by
  induction as generalizing s with
  | nil => rfl
  | cons a as ih => simp [run, ih, List.append_assoc]

/-- Where the outputs of a step do not depend on the state. -/
theorem run_outputs_flatMap {f : α → List ε} (h : ∀ s a, (step s a).2 = f a) (s : σ)
    (as : List α) : (run step s as).2 = as.flatMap f := by
  induction as generalizing s with
  | nil => rfl
  | cons a as ih => rw [run_cons_outputs, h, ih, List.flatMap_cons]

/-- Induction rule for runs: a relation between the state and all outputs so
far that each admissible step preserves holds at the end of an admissible run. -/
theorem run_invariant {Q : σ → α → Prop} {I : σ → List ε → Prop}
    (hstep : ∀ s log a, I s log → Q s a →
      I (step s a).1 (log ++ (step s a).2))
    {s : σ} {log : List ε} {as : List α}
    (hinit : I s log) (hall : AllSteps step Q s as) :
    I (run step s as).1 (log ++ (run step s as).2) := by
  induction as generalizing s log with
  | nil => simpa using hinit
  | cons a as ih =>
      have hnext := ih (hstep s log a hinit hall.1) hall.2
      simpa [List.append_assoc] using hnext

/-- Simulation rule: a machine whose state stays related to that of another one, and
whose admissible steps have the same outputs, has the same outputs over an admissible
run. -/
theorem run_outputs_eq {τ : Type*} {step' : τ → α → τ × List ε} {Q : σ → α → Prop}
    {R : σ → τ → Prop}
    (hstep : ∀ s t a, R s t → Q s a →
      R (step s a).1 (step' t a).1 ∧ (step s a).2 = (step' t a).2)
    {s : σ} {t : τ} {as : List α} (hinit : R s t) (hall : AllSteps step Q s as) :
    (run step s as).2 = (run step' t as).2 := by
  induction as generalizing s t with
  | nil => rfl
  | cons a as ih =>
      obtain ⟨hnext, hout⟩ := hstep s t a hinit hall.1
      rw [run_cons_outputs, run_cons_outputs, hout, ih hnext hall.2]

theorem allSteps_true (s : σ) (as : List α) :
    AllSteps step (fun _ _ => True) s as := by
  induction as generalizing s with
  | nil => trivial
  | cons a as ih => exact ⟨trivial, ih _⟩

/-- A condition on the outputs of every step is one on the outputs of the run. -/
theorem allSteps_outputs {p : ε → Prop} {s : σ} {as : List α} :
    AllSteps step (fun s a => ∀ e ∈ (step s a).2, p e) s as ↔
      ∀ e ∈ (run step s as).2, p e := by
  induction as generalizing s with
  | nil => simp [AllSteps]
  | cons a as ih =>
      rw [run_cons_outputs, List.forall_mem_append]
      exact and_congr_right fun _ => ih

theorem allSteps_congr {Q Q' : σ → α → Prop} (h : ∀ s a, Q s a ↔ Q' s a) (s : σ)
    (as : List α) : AllSteps step Q s as ↔ AllSteps step Q' s as := by
  induction as generalizing s with
  | nil => exact Iff.rfl
  | cons a as ih => exact and_congr (h s a) (ih _)

/-- Two conditions that agree in the states with an invariant agree along a run. -/
theorem allSteps_iff_of_invariant {Q Q' : σ → α → Prop} {I : σ → Prop}
    (hinv : ∀ s a, I s → I (step s a).1) (h : ∀ s a, I s → (Q s a ↔ Q' s a)) {s : σ}
    {as : List α} (hinit : I s) : AllSteps step Q s as ↔ AllSteps step Q' s as := by
  induction as generalizing s with
  | nil => exact Iff.rfl
  | cons a as ih => exact and_congr (h s a hinit) (ih (hinv s a hinit))

theorem AllSteps.imp_of_invariant {step : σ → α → σ × List ε} {Q Q' : σ → α → Prop}
    {I : σ → Prop} (hinv : ∀ s a, I s → I (step s a).1) (h : ∀ s a, I s → Q s a → Q' s a)
    {s : σ} {as : List α} (hinit : I s) (hall : AllSteps step Q s as) :
    AllSteps step Q' s as := by
  induction as generalizing s with
  | nil => trivial
  | cons a as ih => exact ⟨h s a hinit hall.1, ih (hinv s a hinit) hall.2⟩

theorem AllSteps.and {step : σ → α → σ × List ε} {Q Q' : σ → α → Prop} {s : σ} {as : List α}
    (h : AllSteps step Q s as) (h' : AllSteps step Q' s as) :
    AllSteps step (fun s a => Q s a ∧ Q' s a) s as := by
  induction as generalizing s with
  | nil => trivial
  | cons a as ih => exact ⟨⟨h.1, h'.1⟩, ih h.2 h'.2⟩

/-- Where a good state stays good exactly if the step is allowed, all states of a
run are good exactly if all its steps are.  `I` is an invariant of the runs whose
outputs have `N`. -/
theorem allStates_iff_allSteps {R : σ → Prop} {Q : σ → α → Prop} {I : σ → List ε → Prop}
    {N : List ε → Prop} (hclosed : ∀ out out', N (out ++ out') → N out)
    (hinv : ∀ s log a, I s log → N (log ++ (step s a).2) →
      I (step s a).1 (log ++ (step s a).2))
    (hstep : ∀ s log a, I s log → N (log ++ (step s a).2) → R s →
      (R (step s a).1 ↔ Q s a))
    {s : σ} {log : List ε} {as : List α} (hinit : I s log)
    (hall : N (log ++ (run step s as).2)) (hgood : R s) :
    AllStates step R s as ↔ AllSteps step Q s as := by
  induction as generalizing s log with
  | nil => exact iff_of_true hgood trivial
  | cons a as ih =>
      rw [run_cons_outputs, ← List.append_assoc] at hall
      have hnow := hclosed _ _ hall
      have hnext := hstep s log a hinit hnow hgood
      constructor
      · rintro ⟨-, hrest⟩
        have hhead := hrest.head
        exact ⟨hnext.mp hhead, (ih (hinv s log a hinit hnow) hall hhead).mp hrest⟩
      · rintro ⟨hallowed, hrest⟩
        have hhead := hnext.mpr hallowed
        exact ⟨hgood, (ih (hinv s log a hinit hnow) hall hhead).mpr hrest⟩

/-- The same where the invariant only survives the allowed steps. -/
theorem allStates_iff_allSteps_of_kept {R : σ → Prop} {Q : σ → α → Prop} {I : σ → Prop}
    (hgood : ∀ s, I s → R s) (hkeep : ∀ s a, I s → Q s a → I (step s a).1)
    (hallowed : ∀ s a, I s → R (step s a).1 → Q s a) {s : σ} {as : List α} (hinit : I s) :
    AllStates step R s as ↔ AllSteps step Q s as := by
  induction as generalizing s with
  | nil => exact iff_of_true (hgood s hinit) trivial
  | cons a as ih =>
      constructor
      · rintro ⟨-, hrest⟩
        have hstep := hallowed s a hinit hrest.head
        exact ⟨hstep, (ih (hkeep s a hinit hstep)).mp hrest⟩
      · rintro ⟨hstep, hrest⟩
        exact ⟨hgood s hinit, (ih (hkeep s a hinit hstep)).mpr hrest⟩

section Ghost

variable {γ : Type*} (note : γ → ε → γ)

/-- The machine with a record beside the state, which sees the state and the input of
every step. -/
def shadow (follow : γ → σ → α → γ) (o : σ × γ) (a : α) : (σ × γ) × List ε :=
  (((step o.1 a).1, follow o.2 o.1 a), (step o.1 a).2)

theorem run_shadow (follow : γ → σ → α → γ) (o : σ × γ) (as : List α) :
    (run (shadow step follow) o as).1.1 = (run step o.1 as).1 ∧
      (run (shadow step follow) o as).2 = (run step o.1 as).2 := by
  induction as generalizing o with
  | nil => exact ⟨rfl, rfl⟩
  | cons a as ih =>
      obtain ⟨hstate, hout⟩ := ih (shadow step follow o a).1
      exact ⟨hstate, congrArg ((step o.1 a).2 ++ ·) hout⟩

/-- The machine with a record of its outputs beside the state. -/
def observe (o : σ × γ) (a : α) : (σ × γ) × List ε :=
  (((step o.1 a).1, (step o.1 a).2.foldl note o.2), (step o.1 a).2)

/-- The machine with all its outputs so far beside the state. -/
def logged : σ × List ε → α → (σ × List ε) × List ε :=
  observe step fun log e => log ++ [e]

theorem logged_state (s : σ) (log : List ε) (a : α) :
    (logged step (s, log) a).1 = ((step s a).1, log ++ (step s a).2) := by
  have hfold : ∀ (log out : List ε), out.foldl (fun log e => log ++ [e]) log = log ++ out := by
    intro log out
    induction out generalizing log with
    | nil => simp
    | cons e out ih => rw [List.foldl_cons, ih, List.append_assoc, List.singleton_append]
  simp only [logged, observe, hfold]

theorem allSteps_logged {Q : σ → α → Prop} {s : σ} {log : List ε} {as : List α} :
    AllSteps (logged step) (fun o a => Q o.1 a) (s, log) as ↔ AllSteps step Q s as := by
  induction as generalizing s log with
  | nil => exact Iff.rfl
  | cons a as ih =>
      refine and_congr_right fun _ => ?_
      rw [logged_state]
      exact ih

end Ghost

section Tables

variable {K V : Type*} [DecidableEq K]

theorem flatMap_of_ne {entries : List (K × V)} {k : K} (h : ∀ e ∈ entries, e.1 ≠ k)
    (g : V → List ε) : (entries.flatMap fun e => if e.1 = k then g e.2 else []) = [] := by
  rw [List.flatMap_eq_nil_iff]
  intro e he
  rw [if_neg (h e he)]

theorem flatMap_of_mem {entries : List (K × V)}
    (hdistinct : entries.Pairwise fun a b => a.1 ≠ b.1) {k : K} {v : V}
    (hmem : (k, v) ∈ entries) (g : V → List ε) :
    (entries.flatMap fun e => if e.1 = k then g e.2 else []) = g v := by
  induction entries with
  | nil => cases hmem
  | cons e entries ih =>
      obtain ⟨hhead, htail⟩ := List.pairwise_cons.mp hdistinct
      rw [List.flatMap_cons]
      rcases List.mem_cons.mp hmem with rfl | hrest
      · rw [if_pos rfl, flatMap_of_ne (fun e he => (hhead e he).symm), List.append_nil]
      · rw [if_neg (hhead _ hrest), List.nil_append, ih htail hrest]

/-- A loop over an ordered table emits for a key what the entry under it emits. -/
theorem flatMap_toList [Ord K] [Std.TransOrd K] [Std.LawfulEqOrd K] (t : Std.TreeMap K V)
    (k : K) (g : V → List ε) :
    (t.toList.flatMap fun e => if e.1 = k then g e.2 else []) = (t[k]?).elim [] g := by
  cases hget : t[k]? with
  | none =>
      apply flatMap_of_ne
      rintro ⟨k', v⟩ hmem rfl
      rw [Std.TreeMap.mem_toList_iff_getElem?_eq_some, hget] at hmem
      cases hmem
  | some v =>
      refine flatMap_of_mem ?_ (Std.TreeMap.mem_toList_iff_getElem?_eq_some.mpr hget) g
      refine Std.TreeMap.distinct_keys_toList.imp fun hne heq => hne ?_
      exact Std.LawfulEqCmp.compare_eq_iff_eq.mpr heq

end Tables

section Paths

/-- A finite sequence of labelled steps, with all labels in order. -/
inductive Path (R : σ → List ε → σ → Prop) : σ → List ε → σ → Prop
  | refl (s : σ) : Path R s [] s
  | tail {s t u : σ} {out out' : List ε} (h : Path R s out t) (hstep : R t out' u) :
      Path R s (out ++ out') u

variable {R : σ → List ε → σ → Prop}

theorem Path.single {s t : σ} {out : List ε} (h : R s out t) : Path R s out t := by
  simpa using Path.tail (Path.refl s) h

theorem Path.trans {s t u : σ} {out out' : List ε} (h : Path R s out t)
    (h' : Path R t out' u) : Path R s (out ++ out') u := by
  induction h' with
  | refl => simpa using h
  | tail _ hstep ih =>
      rw [← List.append_assoc]
      exact ih.tail hstep

/-- Induction rule for paths: a relation between the state and all labels so far
that each step preserves. -/
theorem Path.invariant {I : σ → List ε → Prop}
    (hstep : ∀ s log out t, I s log → R s out t → I t (log ++ out))
    {s t : σ} {log out : List ε} (hinit : I s log) (h : Path R s out t) :
    I t (log ++ out) := by
  induction h with
  | refl => simpa using hinit
  | tail _ hlast ih =>
      rw [← List.append_assoc]
      exact hstep _ _ _ _ ih hlast

end Paths

end WgNx.OutputMachine
