import Mathlib.Data.List.Induction
import Mathlib.Tactic.Tauto

/-! # Reactive machines

A program that waits for events and handles each of them to the end before the next one: the
shape of anything driven by a main queue.

* **Events and outputs.** `step s i` handles the event `i` in the state `s`. It ends in a new
  state together with the outputs the handler produced, or in a trap of type `ε` that stops the
  program.
* **Environment.** `enabled s i` says when the environment can send `i` (an answer only arrives
  for a question that was asked).
* **Runs.** `Run M s is os s'`: from `s`, the events `is` lead to `s'` with the outputs `os`, and
  no handler trapped. Runs grow at the end, so an induction over a run looks at its last step.

`Run.invariant` and `Run.history` are the induction rules, `restrict` keeps the runs whose steps
all meet a condition, `Run.always_iff` says when that is the same as staying inside a set of
states (`Run.always_history_iff`, when the outputs so far count too), and `Run.simulate` carries
runs of one machine over to another. -/

namespace Reactive

/-- A reactive program together with what its environment may do. -/
structure Machine (σ ι ω ε : Type) where
  start : σ → Prop
  enabled : σ → ι → Prop
  step : σ → ι → Except ε (σ × List ω)

namespace Machine

variable {σ ι ω ε : Type} (M : Machine σ ι ω ε)

/-- One step: an event the environment can send, handled without a trap. -/
def Step (s : σ) (i : ι) (o : List ω) (s' : σ) : Prop :=
  M.enabled s i ∧ M.step s i = .ok (s', o)

/-- Finite runs from a state, growing at the end. -/
inductive Run (s₀ : σ) : List ι → List ω → σ → Prop
  | refl : Run s₀ [] [] s₀
  | snoc {s s' : σ} {is : List ι} {os o : List ω} {i : ι} :
      Run s₀ is os s → M.Step s i o s' → Run s₀ (is ++ [i]) (os ++ o) s'

/-- The states some run from a start state ends in. -/
def Reachable (s : σ) : Prop := ∃ s₀ is os, M.start s₀ ∧ M.Run s₀ is os s

variable {M}

theorem Step.unique {s s₁ s₂ : σ} {i : ι} {o₁ o₂ : List ω} (h₁ : M.Step s i o₁ s₁)
    (h₂ : M.Step s i o₂ s₂) : s₁ = s₂ ∧ o₁ = o₂ := by
  have h := h₁.2.symm.trans h₂.2
  simpa using h

theorem Run.single {s s' : σ} {i : ι} {o : List ω} (h : M.Step s i o s') : M.Run s [i] o s' := by
  simpa using Run.snoc Run.refl h

theorem Run.append {s s' s'' : σ} {is js : List ι} {os ps : List ω} (h₁ : M.Run s is os s')
    (h₂ : M.Run s' js ps s'') : M.Run s (is ++ js) (os ++ ps) s'' := by
  induction h₂ with
  | refl => simpa using h₁
  | snoc _ hs ih =>
      have := Run.snoc ih hs
      simpa [List.append_assoc] using this

/-- A run over `is ++ [i]` ends in a step on `i`. -/
theorem Run.snoc_inv {s s'' : σ} {is : List ι} {i : ι} {ps : List ω}
    (h : M.Run s (is ++ [i]) ps s'') :
    ∃ s' os o, M.Run s is os s' ∧ M.Step s' i o s'' ∧ ps = os ++ o := by
  generalize hjs : is ++ [i] = js at h
  cases h with
  | refl => simp at hjs
  | snoc hr hs =>
      obtain ⟨rfl, hi⟩ := List.append_inj' hjs rfl
      obtain rfl : i = _ := by simpa using hi
      exact ⟨_, _, _, hr, hs, rfl⟩

/-- A run can be cut between two inputs. -/
theorem Run.append_inv {s s'' : σ} {is js : List ι} {qs : List ω} (h : M.Run s (is ++ js) qs s'') :
    ∃ s' os ps, M.Run s is os s' ∧ M.Run s' js ps s'' ∧ qs = os ++ ps := by
  induction js using List.reverseRecOn generalizing s'' qs with
  | nil => exact ⟨s'', qs, [], by simpa using h, .refl, by simp⟩
  | append_singleton js j ih =>
      rw [← List.append_assoc] at h
      obtain ⟨t, os, o, hr, hs, rfl⟩ := h.snoc_inv
      obtain ⟨s', os', ps, h₁, h₂, rfl⟩ := ih hr
      exact ⟨s', os', ps ++ o, h₁, h₂.snoc hs, by simp⟩

/-- A run over `pre ++ i :: post` takes a step on `i` after `pre`. -/
theorem Run.exists_step {s s'' : σ} {pre post : List ι} {i : ι} {qs : List ω}
    (h : M.Run s (pre ++ i :: post) qs s'') :
    ∃ t os o t', M.Run s pre os t ∧ M.Step t i o t' := by
  induction post using List.reverseRecOn generalizing s'' qs with
  | nil =>
      obtain ⟨t, os, o, hr, hs, -⟩ := h.snoc_inv
      exact ⟨t, os, o, s'', hr, hs⟩
  | append_singleton post j ih =>
      rw [← List.cons_append, ← List.append_assoc] at h
      obtain ⟨t, os, o, hr, -, -⟩ := h.snoc_inv
      exact ih hr

theorem Run.nil_inv {s s' : σ} {os : List ω} (h : M.Run s [] os s') : s' = s ∧ os = [] := by
  generalize hjs : ([] : List ι) = js at h
  cases h with
  | refl => exact ⟨rfl, rfl⟩
  | snoc _ _ => simp at hjs

/-- Handlers are functions: the events determine the outputs and the last state. -/
theorem Run.unique {s s₁ s₂ : σ} {is : List ι} {os₁ os₂ : List ω} (h₁ : M.Run s is os₁ s₁)
    (h₂ : M.Run s is os₂ s₂) : s₁ = s₂ ∧ os₁ = os₂ := by
  induction h₁ generalizing s₂ os₂ with
  | refl =>
      obtain ⟨rfl, rfl⟩ := h₂.nil_inv
      exact ⟨rfl, rfl⟩
  | snoc _ hs ih =>
      obtain ⟨s', os, o, hr', hs', rfl⟩ := h₂.snoc_inv
      obtain ⟨rfl, rfl⟩ := ih hr'
      obtain ⟨rfl, rfl⟩ := hs.unique hs'
      exact ⟨rfl, rfl⟩

/-! ### Induction over runs -/

/-- What every step preserves, every run preserves. -/
theorem Run.invariant {P : σ → Prop} (hstep : ∀ s i o s', P s → M.Step s i o s' → P s')
    {s s' : σ} {is : List ι} {os : List ω} (h : M.Run s is os s') (h₀ : P s) : P s' := by
  induction h with
  | refl => exact h₀
  | snoc _ hs ih => exact hstep _ _ _ _ ih hs

/-- An invariant that also speaks about the events and outputs so far. -/
theorem Run.history {P : List ι → List ω → σ → Prop} {s₀ : σ} (h₀ : P [] [] s₀)
    (hstep : ∀ is os s i o s', M.Run s₀ is os s → P is os s → M.Step s i o s' →
      P (is ++ [i]) (os ++ o) s')
    {s : σ} {is : List ι} {os : List ω} (h : M.Run s₀ is os s) : P is os s := by
  induction h with
  | refl => exact h₀
  | snoc hr hs ih => exact hstep _ _ _ _ _ _ hr ih hs

/-- An output of a run is an output of one of its steps. -/
theorem Run.exists_step_of_mem {s₀ s : σ} {is : List ι} {os : List ω} (h : M.Run s₀ is os s) {w : ω}
    (hw : w ∈ os) : ∃ pre ps t i o t', pre ++ [i] <+: is ∧ M.Run s₀ pre ps t ∧ M.Step t i o t' ∧
      w ∈ o := by
  induction h with
  | refl => cases hw
  | @snoc s s' is os o i hr hs ih =>
      rcases List.mem_append.mp hw with hw | hw
      · obtain ⟨pre, ps, t, j, p, t', hp, hr', hs', hmem⟩ := ih hw
        exact ⟨pre, ps, t, j, p, t', hp.trans (List.prefix_append _ _), hr', hs', hmem⟩
      · exact ⟨is, os, s, i, o, s', List.prefix_refl _, hr, hs, hw⟩

/-- The safety rule: an invariant of the start states and of every step holds wherever a run
leads. -/
theorem Reachable.invariant {P : σ → Prop} (hstart : ∀ s, M.start s → P s)
    (hstep : ∀ s i o s', P s → M.Step s i o s' → P s') {s : σ} (h : M.Reachable s) : P s := by
  obtain ⟨s₀, is, os, h₀, hr⟩ := h
  exact hr.invariant hstep (hstart s₀ h₀)

theorem Reachable.step {s s' : σ} {i : ι} {o : List ω} (h : M.Reachable s)
    (hs : M.Step s i o s') : M.Reachable s' := by
  obtain ⟨s₀, is, os, h₀, hr⟩ := h
  exact ⟨s₀, _, _, h₀, hr.snoc hs⟩

/-! ### Runs whose steps all meet a condition -/

/-- The machine in an environment that only sends events meeting `C`. -/
def restrict (M : Machine σ ι ω ε) (C : σ → ι → Prop) : Machine σ ι ω ε where
  start := M.start
  enabled s i := M.enabled s i ∧ C s i
  step := M.step

theorem restrict_step {C : σ → ι → Prop} {s s' : σ} {i : ι} {o : List ω} :
    (M.restrict C).Step s i o s' ↔ M.Step s i o s' ∧ C s i := by
  simp only [Step, restrict]
  tauto

instance {C : σ → ι → Prop} [∀ s i, Decidable (M.enabled s i)] [∀ s i, Decidable (C s i)] (s : σ)
    (i : ι) : Decidable ((M.restrict C).enabled s i) :=
  inferInstanceAs (Decidable (M.enabled s i ∧ C s i))

theorem Run.of_restrict {C : σ → ι → Prop} {s s' : σ} {is : List ι} {os : List ω}
    (h : (M.restrict C).Run s is os s') : M.Run s is os s' := by
  induction h with
  | refl => exact .refl
  | snoc _ hs ih => exact .snoc ih (restrict_step.mp hs).1

theorem Run.restrict_snoc_iff {C : σ → ι → Prop} {s₀ s s' : σ} {is : List ι} {os o : List ω} {i : ι}
    (h : M.Run s₀ is os s) (hs : M.Step s i o s') :
    (M.restrict C).Run s₀ (is ++ [i]) (os ++ o) s' ↔ (M.restrict C).Run s₀ is os s ∧ C s i := by
  constructor
  · intro hres
    obtain ⟨t, ps, q, hr, hs', hq⟩ := hres.snoc_inv
    obtain ⟨rfl, rfl⟩ := h.unique hr.of_restrict
    exact ⟨hr, (restrict_step.mp hs').2⟩
  · rintro ⟨hr, hc⟩
    exact hr.snoc (restrict_step.mpr ⟨hs, hc⟩)

/-- When `P`, once broken, stays broken, and `C` is exactly what a step needs to keep it, then `P`
holds at the end of a run whose steps all meet `C` and of no other. -/
theorem Run.lasting_iff {I P : σ → Prop} {C : σ → ι → Prop}
    (hI : ∀ s i o s', I s → M.Step s i o s' → I s')
    (hstep : ∀ s i o s', I s → M.Step s i o s' → (P s' ↔ P s ∧ C s i))
    {s₀ s : σ} {is : List ι} {os : List ω} (h : M.Run s₀ is os s) (hI₀ : I s₀) (h₀ : P s₀) :
    P s ↔ (M.restrict C).Run s₀ is os s := by
  induction h with
  | refl => exact iff_of_true h₀ .refl
  | snoc hr hs ih => rw [hstep _ _ _ _ (hr.invariant hI hI₀) hs, hr.restrict_snoc_iff hs, ih]

/-! ### Conditions on every step -/

/-- Checking every position of a list of events. -/
theorem forall_split_iff {C : List ι → ι → Prop} {is : List ι} :
    (∀ pre i post, is = pre ++ i :: post → C pre i) ↔
      ∀ k, (hk : k < is.length) → C (is.take k) is[k] := by
  constructor
  · intro hall k hk
    refine hall _ _ (is.drop (k + 1)) ?_
    rw [← List.drop_eq_getElem_cons hk, List.take_append_drop]
  · rintro hall pre i post rfl
    simpa using hall pre.length (by simp)

/-- What holds at every position of a longer list: what held before, and something at the end. -/
theorem forall_split_concat {Q : List ι → ι → Prop} {is : List ι} {i : ι} :
    (∀ pre j post, is ++ [i] = pre ++ j :: post → Q pre j) ↔
      (∀ pre j post, is = pre ++ j :: post → Q pre j) ∧ Q is i := by
  constructor
  · intro hall
    exact ⟨fun pre j post he => hall pre j (post ++ [i]) (by simp [he]), hall is i [] rfl⟩
  · rintro ⟨hall, hlast⟩ pre j post he
    rcases List.eq_nil_or_concat post with rfl | ⟨post, k, rfl⟩
    · obtain ⟨rfl, hij⟩ := List.append_inj' he rfl
      obtain rfl : i = j := by simpa using hij
      exact hlast
    · have he' : is ++ [i] = (pre ++ j :: post) ++ [k] := by simpa using he
      obtain ⟨rfl, -⟩ := List.append_inj' he' rfl
      exact hall pre j post rfl

/-- When `C` is exactly what a step from `P` needs to end in `P`, the runs that never leave `P`
are the runs whose steps all meet `C`.  Both may speak about the outputs so far. -/
theorem Run.always_history_iff {P : List ω → σ → Prop} {C : List ω → σ → ι → Prop} {s₀ : σ}
    (hstep : ∀ is os s i o s', M.Run s₀ is os s → P os s → M.Step s i o s' →
      (P (os ++ o) s' ↔ C os s i))
    {s : σ} {is : List ι} {os : List ω} (h : M.Run s₀ is os s) (h₀ : P [] s₀) :
    (∀ pre ps t, pre <+: is → M.Run s₀ pre ps t → P ps t) ↔
      ∀ pre i post, is = pre ++ i :: post → ∀ ps t, M.Run s₀ pre ps t → C ps t i := by
  induction h with
  | refl =>
      refine iff_of_true (fun pre ps t hp hr => ?_) fun pre i post he => by simp at he
      obtain rfl := List.prefix_nil.mp hp
      obtain ⟨rfl, rfl⟩ := hr.nil_inv
      exact h₀
  | @snoc s' s'' is os o i hr hs ih =>
      rw [forall_split_concat (Q := fun pre j => ∀ ps t, M.Run s₀ pre ps t → C ps t j), ← ih]
      constructor
      · intro hall
        have hpre : ∀ pre ps t, pre <+: is → M.Run s₀ pre ps t → P ps t := fun pre ps t hp =>
          hall pre ps t (hp.trans (List.prefix_append _ _))
        refine ⟨hpre, fun ps t hrun => ?_⟩
        obtain ⟨rfl, rfl⟩ := hr.unique hrun
        have hP' := hpre is os s' (List.prefix_refl _) hr
        exact (hstep _ _ _ _ _ _ hr hP' hs).mp (hall _ _ _ (List.prefix_refl _) (hr.snoc hs))
      · rintro ⟨hpre, hC⟩ pre ps t hp hrun
        rcases List.prefix_concat_iff.mp hp with rfl | hp
        · obtain ⟨rfl, rfl⟩ := (hr.snoc hs).unique hrun
          have hP' := hpre is os s' (List.prefix_refl _) hr
          exact (hstep _ _ _ _ _ _ hr hP' hs).mpr (hC os s' hr)
        · exact hpre pre ps t hp hrun

theorem Run.restrict_iff {C : σ → ι → Prop} {s₀ s : σ} {is : List ι} {os : List ω}
    (h : M.Run s₀ is os s) : (M.restrict C).Run s₀ is os s ↔
      ∀ pre i post, is = pre ++ i :: post → ∀ ps t, M.Run s₀ pre ps t → C t i := by
  induction h with
  | refl => exact iff_of_true .refl fun pre i post he => by simp at he
  | @snoc s' s'' is os o i hr hs ih =>
      rw [forall_split_concat (Q := fun pre j => ∀ ps t, M.Run s₀ pre ps t → C t j), ← ih,
        hr.restrict_snoc_iff hs]
      refine and_congr_right fun _ => ⟨fun hC ps t hrun => ?_, fun hC => hC os s' hr⟩
      obtain ⟨rfl, -⟩ := hr.unique hrun
      exact hC

theorem Run.always_iff {P : σ → Prop} {C : σ → ι → Prop}
    (hstep : ∀ s i o s', P s → M.Step s i o s' → (P s' ↔ C s i))
    {s₀ s : σ} {is : List ι} {os : List ω} (h : M.Run s₀ is os s) (h₀ : P s₀) :
    (∀ pre ps t, pre <+: is → M.Run s₀ pre ps t → P t) ↔ (M.restrict C).Run s₀ is os s :=
  (h.always_history_iff (P := fun _ => P) (C := fun _ => C)
    (fun _ _ _ _ _ _ _ hP hs => hstep _ _ _ _ hP hs) h₀).trans h.restrict_iff.symm

/-! ### Simulation -/

/-- Runs of `M` are matched by runs of `N` with the same outputs when every step is. -/
theorem Run.simulate {τ κ δ : Type} {N : Machine τ κ ω δ} {R : σ → τ → Prop}
    (hstep : ∀ s t i o s', R s t → M.Step s i o s' → ∃ js t', N.Run t js o t' ∧ R s' t')
    {s s' : σ} {is : List ι} {os : List ω} (h : M.Run s is os s') {t : τ} (ht : R s t) :
    ∃ js t', N.Run t js os t' ∧ R s' t' := by
  induction h with
  | refl => exact ⟨[], t, .refl, ht⟩
  | snoc _ hs ih =>
      obtain ⟨js, t', hr, hR⟩ := ih
      obtain ⟨js', t'', hr', hR'⟩ := hstep _ _ _ _ _ hR hs
      exact ⟨_, t'', hr.append hr', hR'⟩

/-! ### Executing a list of events -/

/-- Handle the events one after the other. -/
def exec (M : Machine σ ι ω ε) : σ → List ι → Except ε (σ × List ω)
  | s, [] => .ok (s, [])
  | s, i :: is => do
      let (s', o) ← M.step s i
      let (s'', os) ← exec M s' is
      return (s'', o ++ os)

theorem exec_restrict {C : σ → ι → Prop} (s : σ) (is : List ι) :
    (M.restrict C).exec s is = M.exec s is := by
  induction is generalizing s with
  | nil => rfl
  | cons i is ih =>
      simp only [exec, ih]
      rfl

theorem exec_append (s : σ) (is js : List ι) : M.exec s (is ++ js) = (do
    let (t, os) ← M.exec s is
    let (u, ps) ← M.exec t js
    return (u, os ++ ps)) := by
  induction is generalizing s with
  | nil =>
      simp only [List.nil_append, exec]
      cases hx : M.exec s js <;> simp [hx, bind, Except.bind, pure, Except.pure]
  | cons i is ih =>
      simp only [List.cons_append, exec, ih]
      cases M.step s i with
      | error e => rfl
      | ok r =>
          cases hx : M.exec r.1 is with
          | error e => simp [hx, bind, Except.bind]
          | ok q =>
              cases hy : M.exec q.1 js <;>
                simp [hx, hy, bind, Except.bind, pure, Except.pure, List.append_assoc]

/-- `C` holds before every step of the execution of the events. -/
def Along (M : Machine σ ι ω ε) (C : σ → ι → Prop) : σ → List ι → Prop
  | _, [] => True
  | s, i :: is => C s i ∧
      match M.step s i with
      | .ok (s', _) => Along M C s' is
      | .error _ => True

instance {C : σ → ι → Prop} [∀ s i, Decidable (C s i)] (s : σ) (is : List ι) :
    Decidable (M.Along C s is) :=
  match is with
  | [] => isTrue trivial
  | i :: is =>
      match hs : M.step s i with
      | .ok (s', _) =>
          have : Decidable (M.Along C s' is) := instDecidableAlong s' is
          decidable_of_iff (C s i ∧ M.Along C s' is) (by simp [Along, hs])
      | .error _ => decidable_of_iff (C s i) (by simp [Along, hs])

/-- Executing enabled events is a run. -/
theorem Run.of_exec {s s' : σ} {is : List ι} {os : List ω} (hen : M.Along M.enabled s is)
    (h : M.exec s is = .ok (s', os)) : M.Run s is os s' := by
  induction is generalizing s os with
  | nil =>
      obtain ⟨rfl, rfl⟩ : s = s' ∧ [] = os := by simpa [exec] using h
      exact .refl
  | cons i is ih =>
      obtain ⟨hi, hrest⟩ := hen
      simp only [exec] at h
      cases hs : M.step s i with
      | error e => rw [hs] at h; cases h
      | ok p =>
          obtain ⟨t, o⟩ := p
          rw [hs] at h hrest
          cases hx : M.exec t is with
          | error e =>
              simp only [hx, bind, Except.bind] at h
              cases h
          | ok q =>
              obtain ⟨u, ps⟩ := q
              simp only [hx, bind, Except.bind, pure, Except.pure, Except.ok.injEq,
                Prod.mk.injEq] at h
              obtain ⟨rfl, rfl⟩ := h
              simpa using (Run.single ⟨hi, hs⟩).append (ih hrest hx)

/-- A run is what the execution of its events gives. -/
theorem Run.exec_eq {s s' : σ} {is : List ι} {os : List ω} (h : M.Run s is os s') :
    M.exec s is = .ok (s', os) := by
  induction h with
  | refl => rfl
  | snoc _ hs ih =>
      rw [exec_append, ih]
      simp [exec, hs.2, bind, Except.bind, pure, Except.pure]

/-- Checking what every run over some events ends in, by executing them. -/
theorem Run.forall_of_exec {s : σ} {is : List ι} {Q : List ω → σ → Prop}
    (h : ∀ r ∈ (M.exec s is).toOption, Q r.2 r.1) : ∀ os s', M.Run s is os s' → Q os s' :=
  fun os s' hr => h (s', os) (by rw [hr.exec_eq]; rfl)

/-- Checking a run by executing it. -/
theorem Run.exists_of_exec {s : σ} {l : List ι} {Q : σ → List ω → Prop}
    [∀ s' os, Decidable (Q s' os)] (hen : M.Along M.enabled s l)
    (h : (match M.exec s l with
      | .ok (s', os) => decide (Q s' os)
      | .error _ => false) = true) : ∃ os s', M.Run s l os s' ∧ Q s' os := by
  cases hx : M.exec s l with
  | error e => rw [hx] at h; cases h
  | ok p =>
      obtain ⟨s', os⟩ := p
      rw [hx] at h
      exact ⟨os, s', .of_exec hen hx, by simpa using h⟩

/-! ### Executions that may trap -/

theorem along_concat_iff {C : σ → ι → Prop} {s : σ} {is : List ι} {i : ι} :
    M.Along C s (is ++ [i]) ↔
      M.Along C s is ∧ ∀ s' os, M.exec s is = .ok (s', os) → C s' i := by
  induction is generalizing s with
  | nil =>
      simp only [List.nil_append, Along, exec, Except.ok.injEq, Prod.mk.injEq, true_and]
      constructor
      · rintro ⟨hC, -⟩ s' os ⟨rfl, -⟩
        exact hC
      · intro h
        refine ⟨h s [] ⟨rfl, rfl⟩, ?_⟩
        split <;> trivial
  | cons j js ih =>
      simp only [List.cons_append, Along, exec]
      cases hs : M.step s j with
      | error e => simp [bind, Except.bind]
      | ok r =>
          obtain ⟨t, o⟩ := r
          simp only [ih, and_assoc]
          refine and_congr_right fun _ => and_congr_right fun _ => ?_
          cases hx : M.exec t js with
          | error e => simp [hx, bind, Except.bind]
          | ok q =>
              obtain ⟨u, ps⟩ := q
              simp [hx, bind, Except.bind, pure, Except.pure]

theorem exec_concat_ok_iff {s : σ} {is : List ι} {i : ι} :
    (∃ r, M.exec s (is ++ [i]) = .ok r) ↔
      ∃ s' os, M.exec s is = .ok (s', os) ∧ ∃ r, M.step s' i = .ok r := by
  rw [exec_append]
  cases hx : M.exec s is with
  | error e => simp [bind, Except.bind]
  | ok q =>
      cases hs : M.step q.1 i with
      | error e => simp [exec, hs, bind, Except.bind, Prod.ext_iff]
      | ok r => simp [exec, hs, bind, Except.bind, pure, Except.pure, Prod.ext_iff]

/-- Where the events so far decide whether the next one traps, a list of events is executed to its
end if and only if none of its events traps after those before it. -/
theorem exec_ok_iff {C : List ι → ι → Prop} {s₀ : σ}
    (hstep : ∀ is os s i, M.Run s₀ is os s → M.enabled s i →
      ((∃ r, M.step s i = .ok r) ↔ C is i))
    {is : List ι} (hen : M.Along M.enabled s₀ is) :
    (∃ r, M.exec s₀ is = .ok r) ↔ ∀ pre i post, is = pre ++ i :: post → C pre i := by
  induction is using List.reverseRecOn with
  | nil => simp [exec]
  | append_singleton is i ih =>
      obtain ⟨hen, hi⟩ := along_concat_iff.mp hen
      rw [exec_concat_ok_iff, forall_split_concat]
      constructor
      · rintro ⟨s, os, hx, hok⟩
        exact ⟨(ih hen).mp ⟨_, hx⟩, (hstep _ _ _ _ (.of_exec hen hx) (hi s os hx)).mp hok⟩
      · rintro ⟨hall, hC⟩
        obtain ⟨⟨s, os⟩, hx⟩ := (ih hen).mpr hall
        exact ⟨s, os, hx, (hstep _ _ _ _ (.of_exec hen hx) (hi s os hx)).mpr hC⟩

/-- Checking a step by executing it. -/
theorem Step.of_mem_toOption {s : σ} {i : ι} {r : σ × List ω} (hen : M.enabled s i)
    (h : r ∈ (M.step s i).toOption) : M.Step s i r.2 r.1 := by
  refine ⟨hen, ?_⟩
  cases hs : M.step s i with
  | error e => rw [hs] at h; cases h
  | ok r' =>
      rw [hs] at h
      obtain rfl : r' = r := by simpa [Except.toOption] using h
      rfl

end Machine
end Reactive
