/-
Connection tracking: what becomes of a flow is decided for its first packet, and remembered for the others.

A `Tracker` is the device, which remembers connections in a way of its own. What it is told is a configuration, which
changes between packets: the context is any machine, `config` reads the configuration of the moment. `Laws` is what a
tracker does for its users: the first packet of flow `k` becomes `enter f k` (`none`: it is not let through, and nothing
is remembered); a later packet becomes what the first one did, whatever the configuration is by then, if `pass` lets it
through. A connection can be forgotten at any time.

- `tracked_entered`: a tracked flow was admitted at some packet of it, in the configuration of that moment;
- `tracked_kept`: it stays as it is until it is forgotten;
- `delivered_some`: so what is delivered passes now, and was admitted when its flow was opened;
- `context_reaches`, `context_inv`: the context goes its own way, and keeps what its steps keep;
- `tableTracker_laws`: a table of the flows is a tracker.
-/
import NetSec.Core.Run

namespace NetSec.Tracking

open NetSec.Run

/-- configurations, flows, and what they become -/
structure Tracker (φ κ ν : Type*) where
  Conns : Type
  start : Conns
  entry : Conns → κ → Option ν
  /-- a packet comes: what is delivered, and the connections after it -/
  packet : φ → κ → Conns → Option ν × Conns
  forget : κ → Conns → Conns

variable {φ σ ι κ ν : Type*}

structure Tracker.Laws (T : Tracker φ κ ν) (enter : φ → κ → Option ν) (pass : φ → κ → ν → Bool) : Prop where
  fresh : ∀ k, T.entry T.start k = none
  first : ∀ {f k c}, T.entry c k = none → (T.packet f k c).1 = enter f k ∧ T.entry (T.packet f k c).2 k = enter f k
  later : ∀ {f k c v}, T.entry c k = some v →
    (T.packet f k c).1 = (if pass f k v then some v else none) ∧ T.entry (T.packet f k c).2 k = some v
  others : ∀ {f k c k'}, k' ≠ k → T.entry (T.packet f k c).2 k' = T.entry c k'
  forgotten : ∀ {k c}, T.entry (T.forget k c) k = none
  kept : ∀ {k c k'}, k' ≠ k → T.entry (T.forget k c) k' = T.entry c k'

/-! ## The machine -/

structure Tracked (T : Tracker φ κ ν) (σ : Type*) where
  ctx : σ
  conns : T.Conns

inductive TrackOp (ι κ : Type*) where
  | context (o : ι)
  | packet (k : κ)
  | forget (k : κ)

/-- nothing is tracked yet -/
def untracked (T : Tracker φ κ ν) (s : σ) : Tracked T σ := ⟨s, T.start⟩

def trackStep (T : Tracker φ κ ν) (step : σ → ι → Option σ) (config : σ → φ) (x : Tracked T σ) :
    TrackOp ι κ → Option (Tracked T σ)
  | .context o => (step x.ctx o).map fun s => { x with ctx := s }
  | .packet k => some { x with conns := (T.packet (config x.ctx) k x.conns).2 }
  | .forget k => some { x with conns := T.forget k x.conns }

/-- what is delivered of a packet of the flow -/
def delivered (T : Tracker φ κ ν) (config : σ → φ) (x : Tracked T σ) (k : κ) : Option ν :=
  (T.packet (config x.ctx) k x.conns).1

/-! ## Flows -/

section Flows

variable {T : Tracker φ κ ν} {enter : φ → κ → Option ν} {pass : φ → κ → ν → Bool} (laws : T.Laws enter pass)
  {step : σ → ι → Option σ} {config : σ → φ}

include laws

/-- **Where an entry comes from**, in one step. -/
theorem entry_step {x y : Tracked T σ} {o : TrackOp ι κ} (hs : trackStep T step config x o = some y) {k : κ} {v : ν}
    (h : T.entry y.conns k = some v) :
    T.entry x.conns k = some v ∨ (o = .packet k ∧ enter (config x.ctx) k = some v) := by
  cases o with
  | context o =>
    obtain ⟨s, -, rfl⟩ := Option.map_eq_some_iff.1 hs
    exact Or.inl h
  | packet k' =>
    obtain rfl := Option.some.inj hs
    by_cases hk : k = k'
    · subst hk
      cases hold : T.entry x.conns k with
      | some v' =>
        rw [(laws.later hold).2] at h
        exact Or.inl h
      | none =>
        rw [(laws.first hold).2] at h
        exact Or.inr ⟨rfl, h⟩
    · rw [laws.others hk] at h
      exact Or.inl h
  | forget k' =>
    obtain rfl := Option.some.inj hs
    by_cases hk : k = k'
    · subst hk
      rw [laws.forgotten] at h
      cases h
    · rw [laws.kept hk] at h
      exact Or.inl h

/-- **An entry was admitted** at a packet of its flow. -/
theorem tracked_entered {s : σ} {y : Tracked T σ} {ops : List (TrackOp ι κ)}
    (h : run (trackStep T step config) (untracked T s) ops = some y) {k : κ} {v : ν}
    (hv : T.entry y.conns k = some v) :
    ∃ pre z, pre ++ [.packet k] <+: ops ∧ run (trackStep T step config) (untracked T s) pre = some z ∧
      enter (config z.ctx) k = some v := by
  induction ops using List.reverseRecOn generalizing y with
  | nil =>
    simp only [run_nil, Option.some.injEq] at h
    subst h
    have hnone : T.entry T.start k = some v := hv
    rw [laws.fresh] at hnone
    cases hnone
  | append_singleton ops o ih =>
    rw [run_append, Option.bind_eq_some_iff] at h
    obtain ⟨x, hx, ho⟩ := h
    rw [run_cons, Option.bind_eq_some_iff] at ho
    obtain ⟨y', hy, hend⟩ := ho
    obtain rfl := Option.some.inj hend
    rcases entry_step laws hy hv with hold | ⟨rfl, hnew⟩
    · obtain ⟨pre, z, hpre, hz, henter⟩ := ih hx hold
      exact ⟨pre, z, hpre.trans (List.prefix_append _ _), hz, henter⟩
    · exact ⟨ops, x, List.prefix_refl _, hx, hnew⟩

/-- what is tracked stays so until it is forgotten, in one step -/
theorem kept_step {x y : Tracked T σ} {o : TrackOp ι κ} (hs : trackStep T step config x o = some y) {k : κ} {v : ν}
    (hv : T.entry x.conns k = some v) (hkeep : o ≠ .forget k) : T.entry y.conns k = some v := by
  cases o with
  | context o =>
    obtain ⟨s, -, rfl⟩ := Option.map_eq_some_iff.1 hs
    exact hv
  | packet k' =>
    obtain rfl := Option.some.inj hs
    by_cases hk : k = k'
    · subst hk
      exact (laws.later hv).2
    · exact (laws.others hk).trans hv
  | forget k' =>
    obtain rfl := Option.some.inj hs
    have hk : k ≠ k' := by
      rintro rfl
      exact hkeep rfl
    exact (laws.kept hk).trans hv

theorem tracked_kept {x y : Tracked T σ} {ops : List (TrackOp ι κ)} (h : run (trackStep T step config) x ops = some y)
    {k : κ} {v : ν} (hv : T.entry x.conns k = some v) (hkeep : ∀ o ∈ ops, o ≠ .forget k) :
    T.entry y.conns k = some v := by
  induction ops generalizing x with
  | nil =>
    simp only [run_nil, Option.some.injEq] at h
    exact h ▸ hv
  | cons o ops ih =>
    rw [run_cons, Option.bind_eq_some_iff] at h
    obtain ⟨z, hz, h⟩ := h
    obtain ⟨ho, hrest⟩ := List.forall_mem_cons.1 hkeep
    exact ih h (kept_step laws hz hv ho) hrest

/-- what is delivered on a tracked flow -/
theorem delivered_tracked {y : Tracked T σ} {k : κ} {v : ν} (hv : T.entry y.conns k = some v) :
    delivered T config y k = some v ↔ pass (config y.ctx) k v = true := by
  rw [delivered, (laws.later hv).1, Option.ite_none_right_eq_some, and_iff_left rfl]

/-- **What is delivered** passes now, and was admitted when its flow was opened, now or before. -/
theorem delivered_some (hpass : ∀ f k v, enter f k = some v → pass f k v = true) {s : σ} {y : Tracked T σ}
    {ops : List (TrackOp ι κ)} (h : run (trackStep T step config) (untracked T s) ops = some y) {k : κ} {v : ν}
    (hv : delivered T config y k = some v) : pass (config y.ctx) k v = true ∧
      ∃ pre z, pre <+: ops ∧ run (trackStep T step config) (untracked T s) pre = some z ∧
        enter (config z.ctx) k = some v := by
  cases hentry : T.entry y.conns k with
  | some v' =>
    have hsame : delivered T config y k = _ := (laws.later hentry).1
    rw [hv] at hsame
    split_ifs at hsame with hnow
    obtain rfl := Option.some.inj hsame
    obtain ⟨pre, z, hpre, hz, henter⟩ := tracked_entered laws h hentry
    exact ⟨hnow, pre, z, (List.prefix_append pre _).trans hpre, hz, henter⟩
  | none =>
    have henter : enter (config y.ctx) k = some v := (laws.first hentry).1.symm.trans hv
    exact ⟨hpass _ _ _ henter, ops, y, List.prefix_refl ops, h, henter⟩

end Flows

/-! ## The context -/

section Context

variable {T : Tracker φ κ ν} {step : σ → ι → Option σ} {config : σ → φ}

theorem context_step {x y : Tracked T σ} {o : TrackOp ι κ} (hs : trackStep T step config x o = some y) :
    (∃ i, o = .context i ∧ step x.ctx i = some y.ctx) ∨ y.ctx = x.ctx := by
  cases o with
  | context i =>
    obtain ⟨s, hstep, rfl⟩ := Option.map_eq_some_iff.1 hs
    exact Or.inl ⟨i, rfl, hstep⟩
  | packet k =>
    obtain rfl := Option.some.inj hs
    exact Or.inr rfl
  | forget k =>
    obtain rfl := Option.some.inj hs
    exact Or.inr rfl

theorem context_reaches {x y : Tracked T σ} {ops : List (TrackOp ι κ)}
    (h : run (trackStep T step config) x ops = some y) : Reaches step x.ctx y.ctx := by
  have hreach : Reaches (trackStep T step config) x y := ⟨ops, h⟩
  refine hreach.map step Tracked.ctx ?_
  intro x o y hs
  rcases context_step hs with ⟨i, -, hstep⟩ | hsame
  · exact reaches_of_step hstep
  · rw [hsame]
    exact Reaches.refl step _

/-- the step of the context, if it is one, meets a condition -/
def OnContext (C : σ → ι → Prop) (x : Tracked T σ) (o : TrackOp ι κ) : Prop := ∀ i, o = .context i → C x.ctx i

/-- **Invariant rule.** What the steps of the context keep under a condition holds after every run whose steps of the
context meet it. -/
theorem context_inv {I : σ → Prop} {C : σ → ι → Prop} (hstep : ∀ s i t, I s → C s i → step s i = some t → I t)
    {x y : Tracked T σ} {ops : List (TrackOp ι κ)} (hx : I x.ctx)
    (hC : EveryStep (trackStep T step config) (fun x o _ => OnContext C x o) x ops)
    (h : run (trackStep T step config) x ops = some y) : I y.ctx := by
  induction ops generalizing x with
  | nil =>
    simp only [run_nil, Option.some.injEq] at h
    exact h ▸ hx
  | cons o ops ih =>
    rw [run_cons, Option.bind_eq_some_iff] at h
    obtain ⟨z, hz, h⟩ := h
    obtain ⟨hnow, hrest⟩ := (everyStep_cons_some (trackStep T step config) _ hz ops).1 hC
    refine ih ?_ hrest h
    rcases context_step hz with ⟨i, rfl, hi⟩ | hsame
    · exact hstep _ i _ hx (hnow i rfl) hi
    · rw [hsame]
      exact hx

end Context

/-! ## A table -/

section Table

variable {κ ν : Type} [DecidableEq κ] (enter : φ → κ → Option ν) (pass : φ → κ → ν → Bool)

/-- the flows that have been admitted, in a table -/
def tableTracker : Tracker φ κ ν where
  Conns := κ → Option ν
  start := fun _ => none
  entry := fun c k => c k
  packet := fun f k c =>
    match c k with
    | some v => (if pass f k v then some v else none, c)
    | none => (enter f k, Function.update c k (enter f k))
  forget := fun k c => Function.update c k none

theorem tableTracker_laws : (tableTracker enter pass).Laws enter pass where
  fresh := fun _ => rfl
  first := by
    intro f k (c : κ → Option ν) (h : c k = none)
    simp [tableTracker, h]
  later := by
    intro f k (c : κ → Option ν) v (h : c k = some v)
    simp [tableTracker, h]
  others := by
    intro f k (c : κ → Option ν) k' hk
    cases h : c k with
    | some v => simp only [tableTracker, h]
    | none =>
      simp only [tableTracker, h]
      exact Function.update_of_ne hk _ c
  forgotten := by
    intro k (c : κ → Option ν)
    exact Function.update_self k none c
  kept := by
    intro k (c : κ → Option ν) k' hk
    exact Function.update_of_ne hk none c

end Table

end NetSec.Tracking
