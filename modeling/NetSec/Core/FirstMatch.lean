/-
A log that answers with its first match: entries of any type `α` with a key each, and a relation `covers` between keys.

What is looked up under a key is the first entry whose own key covers it. An observation is appended unless the look-up
of its own key gives an entry that counts. So most observations are never written down, and those that are may answer
for the keys of others.

Where covering is transitive:
- `lookup_kept`: the log answers as the whole history would, as if everything had been written down;
- `lookup_settled`: from the first observation of a key on, its answer is settled, whatever is observed afterwards.
-/
import Mathlib.Tactic

namespace NetSec.FirstMatch

variable {α κ : Type*} (key : α → κ) (covers : κ → κ → Bool) (counts : α → Bool)

def lookup (log : List α) (k : κ) : Option α := log.find? fun a => covers (key a) k

def observe (log : List α) (a : α) : List α := if (lookup key covers log (key a)).any counts then log else log ++ [a]

/-- the log after a history -/
def kept (h : List α) : List α := h.foldl (observe key covers counts) []

theorem kept_concat (h : List α) (a : α) :
    kept key covers counts (h ++ [a]) = observe key covers counts (kept key covers counts h) a := List.foldl_append

theorem lookup_concat (log : List α) (a : α) (k : κ) :
    lookup key covers (log ++ [a]) k = (lookup key covers log k).or (if covers (key a) k then some a else none) := by
  rw [lookup, List.find?_append, List.find?_singleton]
  rfl

/-- an entry that covers the key is found, or one before it -/
theorem lookup_isSome {log : List α} {a : α} {k : κ} (ha : a ∈ log) (hcovers : covers (key a) k = true) :
    (lookup key covers log k).isSome := List.find?_isSome.2 ⟨a, ha, hcovers⟩

variable {covers}

theorem lookup_some {log : List α} {a : α} {k : κ} (h : lookup key covers log k = some a) :
    a ∈ log ∧ covers (key a) k = true := by
  obtain ⟨hcovers, as, bs, rfl, -⟩ := List.find?_eq_some_iff_append.1 h
  exact ⟨List.mem_append_right as List.mem_cons_self, hcovers⟩

/-- **The log answers as the history.** -/
theorem lookup_kept (htrans : ∀ i j k, covers i j = true → covers j k = true → covers i k = true) (h : List α) (k : κ) :
    lookup key covers (kept key covers counts h) k = lookup key covers h k := by
  induction h using List.reverseRecOn generalizing k with
  | nil => rfl
  | append_singleton h a ih =>
    rw [kept_concat, observe, lookup_concat, ← ih k]
    split_ifs with hwritten hcovers hcovers
    · -- what is found under the key of `a` covers all that `a` covers
      obtain ⟨b, hb⟩ := Option.isSome_iff_exists.1 (Option.isSome_of_any hwritten)
      obtain ⟨hmem, hba⟩ := lookup_some key hb
      obtain ⟨c, hc⟩ := Option.isSome_iff_exists.1 (lookup_isSome key covers hmem (htrans _ _ _ hba hcovers))
      rw [hc, Option.some_or]
    · rw [Option.or_none]
    · rw [lookup_concat, if_pos hcovers]
    · rw [lookup_concat, if_neg hcovers]

/-- **Settled.** -/
theorem lookup_settled (hrefl : ∀ k, covers k k = true) {h : List α} {a : α} (ha : a ∈ h) (h' : List α) :
    lookup key covers (h ++ h') (key a) = lookup key covers h (key a) := by
  obtain ⟨b, hb⟩ := Option.isSome_iff_exists.1 (lookup_isSome key covers ha (hrefl (key a)))
  simp only [lookup, List.find?_append] at hb ⊢
  rw [hb, Option.some_or]

end NetSec.FirstMatch
