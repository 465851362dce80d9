/-
Singly linked lists over any type of cells.

`next` gives the link of a cell. `Links next p l` says that the cells met from pointer `p` on are `l`, and that the list
ends after them. `walk` follows the links for a number of steps.

- `Links.unique`: the cells from a pointer on are determined;
- `Links.congr`: links of other cells do not matter;
- `Links.drop`, `Links.truncate`: what follows a cell, and the list cut off after a cell;
- `Links.snoc`: a cell linked behind the last one;
- `walk_eq_take`: a walk meets the cells from the pointer on, as many as it takes steps; `walk_eq`: all, if these are
  enough.
-/
import Mathlib.Tactic

namespace NetSec.LinkedCells

variable {α : Type*}

def Links (next : α → Option α) : Option α → List α → Prop
  | none, [] => True
  | some i, j :: l => i = j ∧ Links next (next i) l
  | _, _ => False

/-- the cells met in at most so many steps -/
def walk (next : α → Option α) : ℕ → Option α → List α
  | 0, _ => []
  | _ + 1, none => []
  | fuel + 1, some i => i :: walk next fuel (next i)

variable {next next' : α → Option α} {p : Option α}

@[simp] theorem links_nil : Links next p [] ↔ p = none := by cases p <;> simp [Links]

@[simp] theorem links_cons {i : α} {l : List α} : Links next p (i :: l) ↔ p = some i ∧ Links next (next i) l := by
  cases p with
  | none => simp [Links]
  | some j =>
    simp only [Links, Option.some.injEq]
    apply and_congr_right
    rintro rfl
    exact Iff.rfl

theorem Links.unique {l l' : List α} (h : Links next p l) (h' : Links next p l') : l = l' := by
  induction l generalizing p l' with
  | nil =>
    rw [links_nil] at h
    subst h
    cases l' with
    | nil => rfl
    | cons j l' => simp at h'
  | cons i l ih =>
    obtain ⟨hp, htail⟩ := links_cons.1 h
    cases l' with
    | nil => simp [hp] at h'
    | cons j l' =>
      obtain ⟨hj, htail'⟩ := links_cons.1 h'
      obtain rfl := Option.some.inj (hp.symm.trans hj)
      rw [ih htail htail']

/-- **Other cells do not matter.** -/
theorem Links.congr {l : List α} (h : Links next p l) (hnext : ∀ i ∈ l, next' i = next i) : Links next' p l := by
  induction l generalizing p with
  | nil => simpa using h
  | cons i l ih =>
    obtain ⟨hp, h⟩ := links_cons.1 h
    refine links_cons.2 ⟨hp, ?_⟩
    rw [hnext i List.mem_cons_self]
    exact ih h fun j hj => hnext j (List.mem_cons_of_mem i hj)

/-- what follows a cell -/
theorem Links.drop {pre post : List α} {i : α} (h : Links next p (pre ++ i :: post)) : Links next (next i) post := by
  induction pre generalizing p with
  | nil => exact (links_cons.1 h).2
  | cons j pre ih => exact ih (links_cons.1 h).2

theorem Links.head {i : α} {l : List α} (h : Links next p (i :: l)) : p = some i := (links_cons.1 h).1

/-- **The list cut off after a cell.** -/
theorem Links.truncate {pre post : List α} {i : α} (h : Links next p (pre ++ i :: post)) (hi : next' i = none)
    (hpre : ∀ j ∈ pre, next' j = next j) : Links next' p (pre ++ [i]) := by
  induction pre generalizing p with
  | nil =>
    obtain ⟨hp, -⟩ := links_cons.1 h
    exact links_cons.2 ⟨hp, by rw [hi]; exact links_nil.2 rfl⟩
  | cons j pre ih =>
    obtain ⟨hp, h⟩ := links_cons.1 h
    refine links_cons.2 ⟨hp, ?_⟩
    rw [hpre j List.mem_cons_self]
    exact ih h fun k hk => hpre k (List.mem_cons_of_mem j hk)

/-- **A cell behind the last one.** -/
theorem Links.snoc {pre : List α} {i j : α} (h : Links next p (pre ++ [i])) (hi : next' i = some j)
    (hj : next' j = none) (hpre : ∀ k ∈ pre, next' k = next k) : Links next' p (pre ++ [i, j]) := by
  induction pre generalizing p with
  | nil =>
    obtain ⟨hp, -⟩ := links_cons.1 h
    refine links_cons.2 ⟨hp, links_cons.2 ⟨hi, ?_⟩⟩
    rw [hj]; exact links_nil.2 rfl
  | cons k pre ih =>
    obtain ⟨hp, h⟩ := links_cons.1 h
    refine links_cons.2 ⟨hp, ?_⟩
    rw [hpre k List.mem_cons_self]
    exact ih h fun m hm => hpre m (List.mem_cons_of_mem k hm)

/-- **A walk meets the cells from the pointer on.** -/
theorem walk_eq_take {l : List α} (h : Links next p l) (fuel : ℕ) : walk next fuel p = l.take fuel := by
  induction l generalizing p fuel with
  | nil =>
    obtain rfl := links_nil.1 h
    cases fuel <;> rfl
  | cons i l ih =>
    obtain ⟨rfl, htail⟩ := links_cons.1 h
    cases fuel with
    | zero => rfl
    | succ fuel => rw [walk, ih htail, List.take_succ_cons]

/-- a walk that takes enough steps meets all cells -/
theorem walk_eq {l : List α} (h : Links next p l) {fuel : ℕ} (hfuel : l.length ≤ fuel) : walk next fuel p = l := by
  rw [walk_eq_take h, List.take_of_length_le hfuel]

end NetSec.LinkedCells
