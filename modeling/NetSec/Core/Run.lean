/-
Runs of machines whose steps can be refused.

A machine is a function `step : σ → ι → Option σ`: from a state, an operation leads to a state or cannot happen there
(`none`). `run` performs a list of operations in order. Two ways to speak about a whole run:
- `EveryState P s ops`: `P` holds in every state the run passes through, the first and the last included;
- `EveryStep C s ops`: `C` holds of every step the run takes (state before, operation, state after).

`Reaches s t` says that some operations lead from `s` to `t`. `gather f s ops` collects what `f` says of each step.

Rules:
- `run_inv`: what every step preserves holds after every run; `gather_inv`: the same with what has been collected;
- `Reaches.map`: a step-by-step simulation carries runs over; `reaches_of_simulates`: the same for a relation, and for
  runs whose steps are good;
- `exists_refused`: an operation that cannot go on for ever is refused in the end;
- `everyStep_iff`: if, from states with the invariant, a step is good exactly when it meets a condition, and a good
  step keeps the invariant, then a run is good at every step exactly when every step meets the condition. The
  invariant may itself speak of the good property: it is only carried along good steps;
- `everyState_iff`: the same for a property of states.
These two turn an exact description of one step into an exact description of all runs;
- `everyStep_of_inv`: steps that are good from states with the invariant, and keep it, make good runs;
- `everyStep_and_of_forall`: what is known of all operations may be asked of all steps;
- `everyState_of_follows`, `everyStep_of_follows`: the same from one machine to another under the same operations.
-/
import Mathlib.Tactic

namespace NetSec.Run

variable {σ ι : Type*} (step : σ → ι → Option σ)

/-- the state after the operations; `none` when one of them cannot happen -/
def run (s : σ) (ops : List ι) : Option σ := ops.foldlM step s

@[simp] theorem run_nil (s : σ) : run step s [] = some s := rfl

@[simp] theorem run_cons (s : σ) (o : ι) (ops : List ι) :
    run step s (o :: ops) = (step s o).bind fun t => run step t ops := rfl

theorem run_append (s : σ) (a b : List ι) : run step s (a ++ b) = (run step s a).bind fun t => run step t b := by
  induction a generalizing s with
  | nil => rfl
  | cons o a ih =>
    cases h : step s o with
    | none => simp [h]
    | some t => simp [h, ih]

/-- **Invariant rule.** What every step preserves holds after every run. -/
theorem run_inv {I : σ → Prop} (hstep : ∀ s o t, I s → step s o = some t → I t) {s t : σ} {ops : List ι} (hs : I s)
    (h : run step s ops = some t) : I t := by
  induction ops generalizing s with
  | nil => simp only [run_nil, Option.some.injEq] at h; exact h ▸ hs
  | cons o ops ih =>
    rw [run_cons, Option.bind_eq_some_iff] at h
    obtain ⟨u, hu, h⟩ := h
    exact ih (hstep s o u hs hu) h

/-! ## Collecting along a run -/

/-- what `f` says of the steps of a run, in their order -/
def gather {β : Type*} (f : σ → ι → List β) : σ → List ι → List β
  | _, [] => []
  | s, o :: ops => f s o ++ ((step s o).map fun t => gather f t ops).getD []

theorem gather_cons {β : Type*} (f : σ → ι → List β) {s t : σ} {o : ι} (h : step s o = some t) (ops : List ι) :
    gather step f s (o :: ops) = f s o ++ gather step f t ops := by
  simp [gather, h]

theorem gather_append {β : Type*} (f : σ → ι → List β) {s t : σ} {a : List ι} (h : run step s a = some t)
    (b : List ι) : gather step f s (a ++ b) = gather step f s a ++ gather step f t b := by
  induction a generalizing s with
  | nil =>
    obtain rfl := Option.some.inj h
    rfl
  | cons o a ih =>
    rw [run_cons, Option.bind_eq_some_iff] at h
    obtain ⟨u, hu, h⟩ := h
    rw [List.cons_append, gather_cons step f hu, gather_cons step f hu, ih h, List.append_assoc]

theorem gather_concat {β : Type*} (f : σ → ι → List β) {s t u : σ} {a : List ι} (h : run step s a = some t) {o : ι}
    (ho : step t o = some u) : gather step f s (a ++ [o]) = gather step f s a ++ f t o := by
  rw [gather_append step f h, gather_cons step f ho, gather, List.append_nil]

/-- **Invariant rule with collected values.** -/
theorem gather_inv {β : Type*} (f : σ → ι → List β) {I : σ → List β → Prop}
    (hstep : ∀ s o t l, I s l → step s o = some t → I t (l ++ f s o)) {s t : σ} {ops : List ι} {l : List β} (hs : I s l)
    (h : run step s ops = some t) : I t (l ++ gather step f s ops) := by
  induction ops generalizing s l with
  | nil =>
    simp only [run_nil, Option.some.injEq] at h
    rw [gather, List.append_nil]
    exact h ▸ hs
  | cons o ops ih =>
    rw [run_cons, Option.bind_eq_some_iff] at h
    obtain ⟨u, hu, h⟩ := h
    rw [gather_cons step f hu, ← List.append_assoc]
    exact ih (hstep s o u l hs hu) h

/-! ## Reaching a state -/

/-- some operations lead from `s` to `t` -/
def Reaches (s t : σ) : Prop := ∃ ops, run step s ops = some t

theorem Reaches.refl (s : σ) : Reaches step s s := ⟨[], rfl⟩

variable {step}

theorem Reaches.trans {s t u : σ} (h : Reaches step s t) (h' : Reaches step t u) : Reaches step s u := by
  obtain ⟨a, ha⟩ := h
  obtain ⟨b, hb⟩ := h'
  exact ⟨a ++ b, by rw [run_append, ha]; exact hb⟩

instance : Trans (Reaches step) (Reaches step) (Reaches step) := ⟨Reaches.trans⟩

theorem reaches_of_step {s t : σ} {o : ι} (h : step s o = some t) : Reaches step s t := ⟨[o], by rw [run_cons, h]; rfl⟩

/-- what one operation does, then others -/
theorem Reaches.after {s t u : σ} {o : ι} (h : Reaches step t u) (ho : step s o = some t) : Reaches step s u :=
  (reaches_of_step ho).trans h

/-- **Simulation rule.** If `f` carries every step over to some operations of another machine, it carries runs over. -/
theorem Reaches.map {σ' ι' : Type*} (step' : σ' → ι' → Option σ') (f : σ → σ')
    (hf : ∀ s o t, step s o = some t → Reaches step' (f s) (f t)) {s t : σ} (h : Reaches step s t) :
    Reaches step' (f s) (f t) := by
  obtain ⟨ops, h⟩ := h
  induction ops generalizing s with
  | nil => simp only [run_nil, Option.some.injEq] at h; exact h ▸ Reaches.refl step' _
  | cons o ops ih =>
    rw [run_cons, Option.bind_eq_some_iff] at h
    obtain ⟨u, hu, h⟩ := h
    exact (hf s o u hu).trans (ih h)

variable (step)

/-- **Until it is refused.** An operation that makes something smaller each time is refused in the end. -/
theorem exists_refused (o : ι) (measure : σ → ℕ) (hless : ∀ s t, step s o = some t → measure t < measure s) (s : σ) :
    ∃ k t, run step s (List.replicate k o) = some t ∧ step t o = none := by
  induction hm : measure s using Nat.strong_induction_on generalizing s with
  | _ m ih =>
    cases hs : step s o with
    | none => exact ⟨0, s, rfl, hs⟩
    | some t =>
      obtain ⟨k, u, hrun, hrefused⟩ := ih (measure t) (hm ▸ hless s t hs) t rfl
      refine ⟨k + 1, u, ?_, hrefused⟩
      rw [List.replicate_succ, run_cons, hs]
      exact hrun

/-! ## Properties of all states and of all steps of a run -/

/-- `P` holds in every state the run passes through -/
def EveryState (P : σ → Prop) (s : σ) (ops : List ι) : Prop :=
  ∀ pre, pre <+: ops → ∀ t, run step s pre = some t → P t

/-- `C` holds of every step the run takes: state before, operation, state after -/
def EveryStep (C : σ → ι → σ → Prop) (s : σ) (ops : List ι) : Prop :=
  ∀ pre o, pre ++ [o] <+: ops → ∀ t t', run step s pre = some t → step t o = some t' → C t o t'

theorem everyState_nil (P : σ → Prop) (s : σ) : EveryState step P s [] ↔ P s := by
  refine ⟨fun h => h [] (List.prefix_refl _) s rfl, ?_⟩
  intro h pre hpre t ht
  rw [List.prefix_nil] at hpre
  subst hpre
  simp only [run_nil, Option.some.injEq] at ht
  exact ht ▸ h

theorem everyState_cons (P : σ → Prop) (s : σ) (o : ι) (ops : List ι) :
    EveryState step P s (o :: ops) ↔ P s ∧ ∀ t, step s o = some t → EveryState step P t ops := by
  refine ⟨?_, ?_⟩
  · intro h
    refine ⟨h [] List.nil_prefix s rfl, ?_⟩
    intro t ht pre hpre u hu
    apply h (o :: pre) ((List.prefix_cons_inj o).2 hpre) u
    rw [run_cons, ht]; exact hu
  · intro ⟨hs, h⟩ pre hpre u hu
    cases pre with
    | nil => simp only [run_nil, Option.some.injEq] at hu; exact hu ▸ hs
    | cons o' pre =>
      obtain ⟨rfl, hpre'⟩ := List.cons_prefix_cons.1 hpre
      rw [run_cons, Option.bind_eq_some_iff] at hu
      obtain ⟨t, ht, hu⟩ := hu
      exact h t ht pre hpre' u hu

theorem everyState_concat (P : σ → Prop) (s : σ) (ops : List ι) (o : ι) :
    EveryState step P s (ops ++ [o]) ↔ EveryState step P s ops ∧ ∀ t, run step s (ops ++ [o]) = some t → P t := by
  refine ⟨?_, ?_⟩
  · intro h
    exact ⟨fun pre hpre => h pre (hpre.trans (List.prefix_append _ _)), h _ (List.prefix_refl _)⟩
  · intro ⟨h, hlast⟩ pre hpre
    rcases List.prefix_concat_iff.1 hpre with rfl | hpre
    · exact hlast
    · exact h pre hpre

theorem everyStep_nil (C : σ → ι → σ → Prop) (s : σ) : EveryStep step C s [] := by
  intro pre o hpre
  simp at hpre

theorem everyStep_cons (C : σ → ι → σ → Prop) (s : σ) (o : ι) (ops : List ι) :
    EveryStep step C s (o :: ops) ↔ ∀ t, step s o = some t → C s o t ∧ EveryStep step C t ops := by
  refine ⟨?_, ?_⟩
  · intro h t ht
    refine ⟨h [] o (by simp) s t rfl ht, ?_⟩
    intro pre o' hpre u u' hu hu'
    refine h (o :: pre) o' ((List.prefix_cons_inj o).2 hpre) u u' ?_ hu'
    rw [run_cons, ht]; exact hu
  · intro h pre o' hpre u u' hu hu'
    cases pre with
    | nil =>
      obtain ⟨rfl, -⟩ := List.cons_prefix_cons.1 hpre
      simp only [run_nil, Option.some.injEq] at hu
      subst hu
      exact (h u' hu').1
    | cons p pre =>
      obtain ⟨rfl, hpre'⟩ := List.cons_prefix_cons.1 hpre
      rw [run_cons, Option.bind_eq_some_iff] at hu
      obtain ⟨t, ht, hu⟩ := hu
      exact (h t ht).2 pre o' hpre' u u' hu hu'

theorem everyStep_cons_some (C : σ → ι → σ → Prop) {s t : σ} {o : ι} (ht : step s o = some t) (ops : List ι) :
    EveryStep step C s (o :: ops) ↔ C s o t ∧ EveryStep step C t ops := by
  rw [everyStep_cons]
  simp [ht]

theorem everyStep_concat (C : σ → ι → σ → Prop) (s : σ) (ops : List ι) (o : ι) :
    EveryStep step C s (ops ++ [o]) ↔
      EveryStep step C s ops ∧ ∀ t t', run step s ops = some t → step t o = some t' → C t o t' := by
  refine ⟨?_, ?_⟩
  · intro h
    exact ⟨fun pre o' hpre => h pre o' (hpre.trans (List.prefix_append _ _)), h ops o (List.prefix_refl _)⟩
  · intro ⟨h, hlast⟩ pre o' hpre
    rcases List.prefix_concat_iff.1 hpre with heq | hpre
    · obtain ⟨rfl, ho⟩ := List.append_inj' heq rfl
      obtain rfl := List.singleton_inj.1 ho
      exact hlast
    · exact h pre o' hpre

/-- a condition that can be decided can be tested along a run -/
instance decidableEveryStep (C : σ → ι → σ → Prop) [∀ s o t, Decidable (C s o t)] :
    ∀ s ops, Decidable (EveryStep step C s ops)
  | s, [] => isTrue (everyStep_nil step C s)
  | s, o :: ops =>
    match h : step s o with
    | none => isTrue ((everyStep_cons step C s o ops).2 (by simp [h]))
    | some t =>
      have : Decidable (EveryStep step C t ops) := decidableEveryStep C t ops
      decidable_of_iff (C s o t ∧ EveryStep step C t ops) (everyStep_cons_some step C h ops).symm

variable {step}

theorem EveryStep.imp {C D : σ → ι → σ → Prop} (hCD : ∀ s o t, C s o t → D s o t) {s : σ} {ops : List ι}
    (h : EveryStep step C s ops) : EveryStep step D s ops :=
  fun pre o hpre t t' ht ht' => hCD t o t' (h pre o hpre t t' ht ht')

/-- what is known of all operations may be added to what is asked of all steps -/
theorem everyStep_and_of_forall {C : σ → ι → σ → Prop} {Q : ι → Prop} {s : σ} {ops : List ι} (hQ : ∀ o ∈ ops, Q o) :
    EveryStep step (fun s o t => Q o ∧ C s o t) s ops ↔ EveryStep step C s ops := by
  refine ⟨fun h => h.imp fun _ _ _ hc => hc.2, ?_⟩
  intro h pre o hpre t t' ht ht'
  exact ⟨hQ o (hpre.subset (by simp)), h pre o hpre t t' ht ht'⟩

/-- what good steps lead to holds in every state -/
theorem EveryStep.everyState {C : σ → ι → σ → Prop} {P : σ → Prop} (hCP : ∀ s o t, C s o t → P t) {s : σ} {ops : List ι}
    (hs : P s) (h : EveryStep step C s ops) : EveryState step P s ops := by
  induction ops generalizing s with
  | nil => exact (everyState_nil step P s).2 hs
  | cons o ops ih =>
    refine (everyState_cons step P s o ops).2 ⟨hs, ?_⟩
    intro t ht
    obtain ⟨hc, hrest⟩ := (everyStep_cons step C s o ops).1 h t ht
    exact ih (hCP s o t hc) hrest

variable (step)

/-- what holds of every step with these operations -/
theorem everyStep_of_forall {C : σ → ι → σ → Prop} {ops : List ι} (h : ∀ o ∈ ops, ∀ s t, C s o t) (s : σ) :
    EveryStep step C s ops :=
  fun _ o hpre t t' _ _ => h o (hpre.subset (by simp)) t t'

theorem everyState_of_inv {I P : σ → Prop} (hstep : ∀ s o t, I s → step s o = some t → I t) (hP : ∀ s, I s → P s)
    {s : σ} (hs : I s) (ops : List ι) : EveryState step P s ops :=
  fun _ _ _ ht => hP _ (run_inv step hstep hs ht)

/-- steps that are good and keep the invariant make runs that are good at every step -/
theorem everyStep_of_inv {I : σ → Prop} {G : σ → ι → σ → Prop}
    (hstep : ∀ s o t, I s → step s o = some t → G s o t ∧ I t) {s : σ} (hs : I s) (ops : List ι) :
    EveryStep step G s ops := by
  intro pre o _ t t' ht ht'
  have hinv : I t := run_inv step (fun s o t hs h => (hstep s o t hs h).2) hs ht
  exact (hstep t o t' hinv ht').1

/-- **Exact condition, step by step.** From states with the invariant, a step is good exactly when it meets the
condition, and a good step keeps the invariant: then a run is good at every step exactly when every step meets the
condition. -/
theorem everyStep_iff {I : σ → Prop} {G C : σ → ι → σ → Prop}
    (hstep : ∀ s o t, I s → step s o = some t → (G s o t ↔ C s o t) ∧ (G s o t → I t)) {s : σ} (hs : I s)
    (ops : List ι) : EveryStep step G s ops ↔ EveryStep step C s ops := by
  induction ops generalizing s with
  | nil => exact iff_of_true (everyStep_nil step G s) (everyStep_nil step C s)
  | cons o ops ih =>
    rw [everyStep_cons, everyStep_cons]
    apply forall_congr'
    intro t
    apply imp_congr_right
    intro ht
    obtain ⟨hiff, hinv⟩ := hstep s o t hs ht
    refine ⟨?_, ?_⟩
    · intro ⟨hg, h⟩
      exact ⟨hiff.1 hg, (ih (hinv hg)).1 h⟩
    · intro ⟨hc, h⟩
      have hg := hiff.2 hc
      exact ⟨hg, (ih (hinv hg)).2 h⟩

/-- **Exact condition, state by state.** The same for a property `P` of states. -/
theorem everyState_iff {I P : σ → Prop} {C : σ → ι → σ → Prop}
    (hstep : ∀ s o t, I s → P s → step s o = some t → I t ∧ (P t ↔ C s o t)) {s : σ} (hs : I s) (hP : P s)
    (ops : List ι) : EveryState step P s ops ↔ EveryStep step C s ops := by
  induction ops generalizing s with
  | nil => exact iff_of_true ((everyState_nil step P s).2 hP) (everyStep_nil step C s)
  | cons o ops ih =>
    rw [everyState_cons, everyStep_cons]
    rw [and_iff_right hP]
    apply forall_congr'
    intro t
    apply imp_congr_right
    intro ht
    obtain ⟨hinv, hiff⟩ := hstep s o t hs hP ht
    refine ⟨?_, ?_⟩
    · intro h
      have hPt : P t := h [] List.nil_prefix t rfl
      exact ⟨hiff.1 hPt, (ih hinv hPt).1 h⟩
    · intro ⟨hc, h⟩
      exact (ih hinv (hiff.2 hc)).2 h

/-! ## Two machines -/

/-- **Simulation, while the steps are good.** A relation that some operations of a second machine restore after every
good step leads from a run of good steps to a run of the second machine. -/
theorem reaches_of_simulates {τ κ : Type*} {step : σ → ι → Option σ} {step' : τ → κ → Option τ} {R : σ → τ → Prop}
    {C : σ → ι → σ → Prop}
    (hstep : ∀ s o s' t, R s t → C s o s' → step s o = some s' → ∃ t', Reaches step' t t' ∧ R s' t') {s s' : σ} {t : τ}
    (hR : R s t) {ops : List ι} (h : run step s ops = some s') (hC : EveryStep step C s ops) :
    ∃ t', Reaches step' t t' ∧ R s' t' := by
  induction ops generalizing s t with
  | nil =>
    obtain rfl := Option.some.inj h
    exact ⟨t, Reaches.refl step' t, hR⟩
  | cons o ops ih =>
    rw [run_cons, Option.bind_eq_some_iff] at h
    obtain ⟨u, hu, h⟩ := h
    obtain ⟨hc, hrest⟩ := (everyStep_cons step C s o ops).1 hC u hu
    obtain ⟨t', hreach, hR'⟩ := hstep s o u t hR hc hu
    obtain ⟨t'', hreach', hR''⟩ := ih hR' h hrest
    exact ⟨t'', hreach.trans hreach', hR''⟩

/-! ## Two machines under the same operations -/

variable {τ : Type*} {step' : τ → ι → Option τ}

/-- **Properties carried over.** A relation with a second machine that follows every step, and is kept by steps that the
second machine finds good: then a run all of whose steps the second machine finds good has the property. -/
theorem everyState_of_follows {R : σ → τ → Prop} {P : σ → Prop} {C : τ → ι → τ → Prop} (hP : ∀ s t, R s t → P s)
    (hstep : ∀ s t o s', R s t → step s o = some s' → ∃ t', step' t o = some t' ∧ (C t o t' → R s' t')) {s : σ} {t : τ}
    (hR : R s t) {ops : List ι} (hC : EveryStep step' C t ops) : EveryState step P s ops := by
  induction ops generalizing s t with
  | nil => exact (everyState_nil step P s).2 (hP s t hR)
  | cons o ops ih =>
    refine (everyState_cons step P s o ops).2 ⟨hP s t hR, ?_⟩
    intro s' hs'
    obtain ⟨t', ht', hkeep⟩ := hstep s t o s' hR hs'
    obtain ⟨hc, hrest⟩ := (everyStep_cons step' C t o ops).1 hC t' ht'
    exact ih (hkeep hc) hrest

/-- **Conditions carried back.** The first machine follows every step of the second, and when it keeps its property the
step is good and the relation is kept: then a run of the first with the property has only good steps. -/
theorem everyStep_of_follows {R : σ → τ → Prop} {P : σ → Prop} {C : τ → ι → τ → Prop}
    (hstep : ∀ s t o t', R s t → step' t o = some t' → ∃ s', step s o = some s' ∧ (P s' → C t o t' ∧ R s' t')) {s : σ}
    {t : τ} (hR : R s t) {ops : List ι} (hP : EveryState step P s ops) : EveryStep step' C t ops := by
  induction ops generalizing s t with
  | nil => exact everyStep_nil step' C t
  | cons o ops ih =>
    apply (everyStep_cons step' C t o ops).2
    intro t' ht'
    obtain ⟨s', hs', hgood⟩ := hstep s t o t' hR ht'
    have hrest := ((everyState_cons step P s o ops).1 hP).2 s' hs'
    obtain ⟨hc, hR'⟩ := hgood (hrest [] List.nil_prefix s' rfl)
    exact ⟨hc, ih hR' hrest⟩

end NetSec.Run
