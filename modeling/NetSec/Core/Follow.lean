/-
Following a function from place to place until a place where one stops.

`next` gives the next place, `stop` says where to stop, `place next a k` is the place after `k` moves. `EndsIn next stop
a k` says that one stops after `k` moves, `Visits next stop a q` that one comes to `q`, without having stopped before.

- `EndsIn.unique`, `EndsIn.visits`: the number of moves is determined, and grows smaller on the way;
- `EndsIn.no_return`: on the way to a stop no place is met twice;
- `ends_iff`: if some moves are jumps into a finite set of places, then one stops exactly when no jump leads back to
  itself and one always comes to a stop or to another jump.
-/
import Mathlib.Tactic

namespace NetSec.Follow

variable {α : Type*} (next : α → α) (stop : α → Prop)

/-- the place after `k` moves, wherever one stops -/
def place (a : α) : ℕ → α
  | 0 => a
  | k + 1 => next (place a k)

/-- one stops after so many moves -/
inductive EndsIn : α → ℕ → Prop
  | here {a : α} (h : stop a) : EndsIn a 0
  | move {a : α} {k : ℕ} (h : ¬ stop a) (hk : EndsIn (next a) k) : EndsIn a (k + 1)

/-- one comes to a place -/
inductive Visits (a : α) : α → Prop
  | start : Visits a a
  | move {q : α} (hq : Visits a q) (h : ¬ stop q) : Visits a (next q)

variable {next stop} {a b q : α}

theorem EndsIn.unique {k k' : ℕ} (h : EndsIn next stop a k) (h' : EndsIn next stop a k') : k = k' := by
  induction h generalizing k' with
  | here h =>
    cases h' with
    | here _ => rfl
    | move hn _ => exact absurd h hn
  | move h _ ih =>
    cases h' with
    | here hs => exact absurd hs h
    | move _ hk' => rw [ih hk']

theorem Visits.trans (h : Visits next stop a b) (h' : Visits next stop b q) : Visits next stop a q := by
  induction h' with
  | start => exact h
  | move _ hs ih => exact .move ih hs

/-- **From a place on the way one stops as well**, after no more moves. -/
theorem EndsIn.visits {k : ℕ} (h : EndsIn next stop a k) (hq : Visits next stop a q) :
    ∃ m ≤ k, EndsIn next stop q m := by
  induction hq with
  | start => exact ⟨k, le_rfl, h⟩
  | move _ hs ih =>
    obtain ⟨m, hm, hend⟩ := ih
    cases hend with
    | here h0 => exact absurd h0 hs
    | @move _ m _ hend => exact ⟨m, by omega, hend⟩

/-- **No place is met twice.** -/
theorem EndsIn.no_return {k : ℕ} (h : EndsIn next stop a k) (hs : ¬ stop a) : ¬ Visits next stop (next a) a := by
  intro hback
  cases h with
  | here h0 => exact hs h0
  | @move _ k _ hend =>
    obtain ⟨m, hm, hagain⟩ := hend.visits hback
    have heq := hagain.unique (.move hs hend)
    omega

theorem place_succ (a : α) (k : ℕ) : place next (next a) k = place next a (k + 1) := by
  induction k with
  | zero => rfl
  | succ k ih =>
    rw [place, ih]
    rfl

theorem place_add (a : α) (k m : ℕ) : place next (place next a k) m = place next a (k + m) := by
  induction m with
  | zero => rfl
  | succ m ih =>
    rw [place, ih]
    rfl

theorem visits_place {k : ℕ} (h : ∀ j < k, ¬ stop (place next a j)) : Visits next stop a (place next a k) := by
  induction k with
  | zero => exact .start
  | succ k ih => exact .move (ih fun j hj => h j (by omega)) (h k (by omega))

theorem endsIn_of_place {k : ℕ} (h : stop (place next a k)) : ∃ m, EndsIn next stop a m := by
  induction k generalizing a with
  | zero => exact ⟨0, .here h⟩
  | succ k ih =>
    by_cases hs : stop a
    · exact ⟨0, .here hs⟩
    · rw [← place_succ] at h
      obtain ⟨m, hm⟩ := ih h
      exact ⟨m + 1, .move hs hm⟩

/-- a place one comes to is the place after some moves -/
theorem Visits.place (h : Visits next stop a q) : ∃ k, Follow.place next a k = q := by
  induction h with
  | start => exact ⟨0, rfl⟩
  | move _ _ ih =>
    obtain ⟨k, rfl⟩ := ih
    exact ⟨k + 1, rfl⟩

/-- **When one stops.** The jumps lead into a finite set, so that one that never stops repeats a jump. -/
theorem ends_iff {jump : α → Prop} {F : Set α} (hF : F.Finite) (hjump : ∀ q, jump q → next q ∈ F) :
    (∃ k, EndsIn next stop a k) ↔
      (∀ q, Visits next stop a q → ¬ stop q → jump q → ¬ Visits next stop (next q) q) ∧
        ∀ q, Visits next stop a q → ∃ z, Visits next stop q z ∧ (stop z ∨ jump z) := by
  refine ⟨?_, ?_⟩
  · intro ⟨k, h⟩
    refine ⟨?_, ?_⟩
    · intro q hq hs _
      obtain ⟨m, -, hm⟩ := h.visits hq
      exact hm.no_return hs
    · intro q hq
      obtain ⟨m, -, hm⟩ := h.visits hq
      clear h hq
      induction hm with
      | here hs => exact ⟨_, .start, Or.inl hs⟩
      | move hs _ ih =>
        obtain ⟨z, hz, hend⟩ := ih
        exact ⟨z, (Visits.move .start hs).trans hz, hend⟩
  · intro ⟨hloop, hrun⟩
    by_contra hnever
    have hgo : ∀ k, ¬ stop (place next a k) := fun k hs => hnever (endsIn_of_place hs)
    have hvisit : ∀ i k, Visits next stop (place next a i) (place next a (i + k)) := by
      intro i k
      rw [← place_add]
      apply visits_place
      intro j _
      rw [place_add]
      exact hgo (i + j)
    have hreach : ∀ k, Visits next stop a (place next a k) := fun k => visits_place fun j _ => hgo j
    -- there is a jump after any number of moves
    have hjumps : {k | jump (place next a k)}.Infinite := by
      rw [Set.infinite_iff_exists_gt]
      intro n
      obtain ⟨z, hz, hend⟩ := hrun _ (hreach (n + 1))
      obtain ⟨k, rfl⟩ := hz.place
      rw [place_add] at hend
      exact ⟨n + 1 + k, hend.resolve_left (hgo _), by omega⟩
    -- two of them lead to one place, so that the later one leads back to itself
    have hback : ∀ i j, i < j → jump (place next a j) → place next a (i + 1) = place next a (j + 1) → False := by
      intro i j hij hj hsame
      apply hloop _ (hreach j) (hgo j) hj
      have hvisits := hvisit (i + 1) (j - (i + 1))
      rw [hsame, show i + 1 + (j - (i + 1)) = j by omega] at hvisits
      exact hvisits
    obtain ⟨i, hi, j, hj, hne, hsame⟩ := hjumps.exists_ne_map_eq_of_mapsTo
      (f := fun k => place next a (k + 1)) (fun k hk => hjump _ hk) hF
    rcases Nat.lt_or_gt_of_ne hne with hlt | hlt
    · exact hback i j hlt hj hsame
    · exact hback j i hlt hi hsame.symm

end NetSec.Follow
