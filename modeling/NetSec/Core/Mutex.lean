/-
Mutexes as values: numbered objects, each with its own holder.

`lock` takes a free object and blocks (`none`) on any other, `unlock` frees it. `copy` is what an assignment of one
mutex to another does: the bytes go to a new object, and from then on the two have nothing to do with each other.

Threads enter sections, each under an object: `Guarded os guard` says that the objects held are exactly those of the
threads in a section.
- `Guarded.lock`, `Guarded.unlock`: entering and leaving keep it;
- `Guarded.unique`: two threads in sections under one object are one thread. Nothing is said of two objects.
-/
import Mathlib.Tactic

namespace NetSec.Mutex

variable {τ : Type*}

/-- who holds each object -/
abbrev Objects (τ : Type*) := List (Option τ)

def Holds (os : Objects τ) (m : ℕ) (t : τ) : Prop := os[m]? = some (some t)

def Free (os : Objects τ) (m : ℕ) : Prop := os[m]? = some none

/-- take object `m` for thread `t` -/
def lock (m : ℕ) (t : τ) (os : Objects τ) : Option (Objects τ) :=
  match os[m]? with
  | some none => some (os.set m (some t))
  | _ => none

def unlock (m : ℕ) (os : Objects τ) : Objects τ := os.set m none

/-- a new object with the value of `m`: its number, and the objects then -/
def copy (m : ℕ) (os : Objects τ) : ℕ × Objects τ := (os.length, os ++ [os[m]?.join])

theorem holds_unique {os : Objects τ} {m : ℕ} {t t' : τ} (h : Holds os m t) (h' : Holds os m t') : t = t' := by
  unfold Holds at h h'
  simpa [h] using h'

theorem lock_some {os os' : Objects τ} {m : ℕ} {t : τ} (h : lock m t os = some os') :
    Free os m ∧ os' = os.set m (some t) := by
  unfold lock at h
  split at h
  · rename_i hfree
    exact ⟨hfree, (Option.some.inj h).symm⟩
  · cases h

theorem holds_lock {os os' : Objects τ} {m : ℕ} {t : τ} (h : lock m t os = some os') (m' : ℕ) (t' : τ) :
    Holds os' m' t' ↔ Holds os m' t' ∨ (m' = m ∧ t' = t) := by
  obtain ⟨hfree, rfl⟩ := lock_some h
  unfold Free at hfree
  unfold Holds
  obtain ⟨hlt, -⟩ := List.getElem?_eq_some_iff.1 hfree
  rw [List.getElem?_set]
  split_ifs with hm
  · subst hm
    simp [hfree, eq_comm]
  · simp [Ne.symm hm]

theorem holds_unlock {os : Objects τ} {m : ℕ} (m' : ℕ) (t' : τ) :
    Holds (unlock m os) m' t' ↔ Holds os m' t' ∧ m' ≠ m := by
  unfold Holds unlock
  rw [List.getElem?_set]
  split_ifs with hm
  · simp [hm]
  · simp [hm]
  · simp [Ne.symm hm]

theorem length_lock {os os' : Objects τ} {m : ℕ} {t : τ} (h : lock m t os = some os') : os'.length = os.length := by
  rw [(lock_some h).2, List.length_set]

theorem length_unlock (m : ℕ) (os : Objects τ) : (unlock m os).length = os.length := List.length_set

/-! ## Sections -/

/-- the objects held are exactly the guards of the threads in a section -/
def Guarded (os : Objects τ) (guard : τ → Option ℕ) : Prop := ∀ t m, guard t = some m ↔ Holds os m t

/-- **Two threads under one object are one thread.** -/
theorem Guarded.unique {os : Objects τ} {guard : τ → Option ℕ} (h : Guarded os guard) {t t' : τ} {m : ℕ}
    (ht : guard t = some m) (ht' : guard t' = some m) : t = t' :=
  holds_unique ((h t m).1 ht) ((h t' m).1 ht')

variable [DecidableEq τ]

theorem Guarded.lock {os os' : Objects τ} {guard : τ → Option ℕ} (h : Guarded os guard) {t : τ} {m : ℕ}
    (ht : guard t = none) (hl : lock m t os = some os') : Guarded os' (Function.update guard t (some m)) := by
  intro t' m'
  rw [holds_lock hl]
  by_cases hne : t' = t
  · subst hne
    have hno : ¬ Holds os m' t' := fun hh => by simp [(h t' m').2 hh] at ht
    simp [hno, eq_comm]
  · rw [Function.update_of_ne hne, h t' m']
    simp [hne]

theorem Guarded.unlock {os : Objects τ} {guard : τ → Option ℕ} (h : Guarded os guard) {t : τ} {m : ℕ}
    (ht : guard t = some m) : Guarded (unlock m os) (Function.update guard t none) := by
  intro t' m'
  rw [holds_unlock]
  by_cases hne : t' = t
  · subst hne
    have hm : Holds os m' t' → m' = m := fun hh => by simpa [ht, eq_comm] using (h t' m').2 hh
    simpa using hm
  · rw [Function.update_of_ne hne, h t' m']
    refine (and_iff_left_of_imp ?_).symm
    intro hh
    rintro rfl
    exact hne (holds_unique hh ((h t m').1 ht))

end NetSec.Mutex
