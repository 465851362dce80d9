/-
What the others do between two steps of one thread.

`who o` is the thread that an operation is a step of, if any. A `Turn` of a run is a step of a thread, what comes until
the thread's next step, and that step, with the states in between. Conditions on a schedule speak of turns: what a
thread has found at its first step, others may have changed before its second.

- `Turn.kept`: what no other thread changes is the same at both steps;
- `exists_turn`: what a thread has, unlike at the start, it has from its last step. So its next step ends a turn.
-/
import NetSec.Core.Run

namespace NetSec.Run

variable {σ ι τ : Type*} {step : σ → ι → Option σ} {who : ι → Option τ} {s : σ} {ops : List ι} {θ : τ}

/-- two steps of thread `θ` in a run from `s`, one after the other as far as `θ` goes -/
structure Turn (step : σ → ι → Option σ) (who : ι → Option τ) (θ : τ) (s : σ) (ops : List ι) where
  pre : List ι
  /-- the state before the first step, the step, the state after it -/
  before : σ
  first : ι
  after : σ
  /-- the operations in between, and where they lead -/
  mid : List ι
  last : σ
  next : ι
  split : pre ++ first :: (mid ++ [next]) <+: ops
  run_pre : run step s pre = some before
  run_first : step before first = some after
  run_mid : run step after mid = some last
  who_first : who first = some θ
  who_next : who next = some θ
  others : ∀ o ∈ mid, who o ≠ some θ

/-- what has been done when the second step comes -/
def Turn.past (u : Turn step who θ s ops) : List ι := u.pre ++ u.first :: u.mid

theorem Turn.run_past (u : Turn step who θ s ops) : run step s u.past = some u.last := by
  rw [Turn.past, run_append, u.run_pre, Option.bind_some, run_cons, u.run_first, Option.bind_some, u.run_mid]

theorem Turn.past_prefix (u : Turn step who θ s ops) : u.past ++ [u.next] <+: ops := by
  have hsplit := u.split
  rwa [Turn.past, List.append_assoc, List.cons_append]

theorem Turn.past_prefix_ops (u : Turn step who θ s ops) : u.past <+: ops :=
  (List.prefix_append _ _).trans u.past_prefix

theorem Turn.run_after (u : Turn step who θ s ops) : run step s (u.pre ++ [u.first]) = some u.after := by
  rw [run_append, u.run_pre, Option.bind_some, run_cons, u.run_first]
  rfl

/-- what no other thread changes is the same at both steps -/
theorem Turn.kept {ν : Type*} {loc : σ → τ → ν}
    (hloc : ∀ x o y, step x o = some y → ∀ θ, who o ≠ some θ → loc y θ = loc x θ) (u : Turn step who θ s ops) :
    loc u.last θ = loc u.after θ := by
  have h : ∀ mid y, (∀ o ∈ mid, who o ≠ some θ) → run step y mid = some u.last → loc u.last θ = loc y θ := by
    intro mid
    induction mid with
    | nil =>
      intro y _ hy
      rw [Option.some.inj hy]
    | cons o mid ih =>
      intro y hothers hy
      rw [run_cons, Option.bind_eq_some_iff] at hy
      obtain ⟨y', hstep, hy⟩ := hy
      obtain ⟨ho, hothers⟩ := List.forall_mem_cons.1 hothers
      rw [ih y' hothers hy, hloc y o y' hstep θ ho]
  exact h u.mid u.after u.others u.run_mid

/-- what holds in every state up to the second step does in every state between the two -/
theorem Turn.everyState_mid (u : Turn step who θ s ops) {P : σ → Prop} (h : EveryState step P s u.past) :
    EveryState step P u.after u.mid := by
  intro m hm y hy
  have hpre : u.pre ++ [u.first] ++ m <+: u.past := by
    rw [Turn.past, List.append_cons u.pre u.first u.mid]
    exact (List.prefix_append_right_inj _).2 hm
  refine h _ hpre y ?_
  rw [run_append, u.run_after, Option.bind_some, hy]

/-- **A thread's next step ends a turn**, if the thread has something that it did not have at the start and that no
other thread changes. -/
theorem exists_turn {ν : Type*} {loc : σ → τ → ν}
    (hloc : ∀ x o y, step x o = some y → ∀ θ, who o ≠ some θ → loc y θ = loc x θ) {pre : List ι} {z : σ} {o' : ι}
    (hops : pre ++ [o'] <+: ops) (hrun : run step s pre = some z) (ho' : who o' = some θ) (hne : loc z θ ≠ loc s θ) :
    ∃ u : Turn step who θ s ops, u.past = pre ∧ u.last = z ∧ u.next = o' ∧ loc u.after θ = loc z θ := by
  -- back from the end, to the last step of the thread
  suffices h : ∀ mid past y, past ++ mid = pre → run step s past = some y → run step y mid = some z →
      (∀ o ∈ mid, who o ≠ some θ) → loc y θ = loc z θ →
      ∃ u : Turn step who θ s ops, u.past = pre ∧ u.last = z ∧ u.next = o' ∧ loc u.after θ = loc z θ from
    h [] pre z (List.append_nil pre) hrun rfl (by simp) rfl
  intro mid past
  induction past using List.reverseRecOn generalizing mid with
  | nil =>
    intro y _ hy _ _ hsame
    obtain rfl := Option.some.inj hy
    exact absurd hsame.symm hne
  | append_singleton past o ih =>
    intro y hpre hy hmid hothers hsame
    rw [run_append, Option.bind_eq_some_iff] at hy
    obtain ⟨x, hx, hy⟩ := hy
    rw [run_cons, Option.bind_eq_some_iff] at hy
    obtain ⟨y', hstep, hend⟩ := hy
    obtain rfl := Option.some.inj hend
    rw [List.append_assoc, List.singleton_append] at hpre
    by_cases ho : who o = some θ
    · have hsplit : past ++ o :: (mid ++ [o']) <+: ops := by
        rw [← hpre] at hops
        simpa using hops
      exact ⟨⟨past, x, o, y', mid, z, o', hsplit, hx, hstep, hmid, ho, ho', hothers⟩, hpre, rfl, rfl, hsame⟩
    · refine ih (o :: mid) x hpre hx ?_ ?_ ?_
      · rw [run_cons, hstep, Option.bind_some, hmid]
      · exact List.forall_mem_cons.2 ⟨ho, hothers⟩
      · rw [← hsame, hloc x o y' hstep θ ho]

end NetSec.Run
