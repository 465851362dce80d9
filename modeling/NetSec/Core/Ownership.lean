/-
Tokens and the places that hold them: places and tokens of any type, a list of tokens at each place.

`Accounted issued held`: the tokens that have been issued are those that some place holds, none is at two places, none
twice at one. Two things happen to tokens: a new one is issued to a place (`Issues`), and the first one of a place goes
to the end of another (`Moves`).

- `Accounted.of_issues`, `Accounted.of_moves`: neither loses a token nor makes a second one of it;
- `Accounted.elsewhere`: what one place holds no other does.
-/
import Mathlib.Tactic

namespace NetSec.Ownership

variable {κ α : Type*} {issued issued' : α → Prop} {held held' : κ → List α} {k l : κ} {a b : α}

structure Accounted (issued : α → Prop) (held : κ → List α) : Prop where
  nodup : ∀ k, (held k).Nodup
  apart : ∀ k l a, a ∈ held k → a ∈ held l → k = l
  issued_iff : ∀ a, issued a ↔ ∃ k, a ∈ held k

/-- a token is issued to place `l` -/
structure Issues (held held' : κ → List α) (l : κ) (b : α) : Prop where
  gained : held' l = held l ++ [b]
  frame : ∀ m, m ≠ l → held' m = held m

/-- the first token of place `k` goes to the end of place `l` -/
structure Moves (held held' : κ → List α) (k l : κ) (b : α) : Prop where
  ne : k ≠ l
  lost : held k = b :: held' k
  gained : held' l = held l ++ [b]
  frame : ∀ m, m ≠ k → m ≠ l → held' m = held m

theorem Accounted.elsewhere (h : Accounted issued held) (hk : a ∈ held k) (hkl : k ≠ l) : a ∉ held l :=
  fun hl => hkl (h.apart k l a hk hl)

theorem Accounted.issued_of_mem (h : Accounted issued held) (hk : a ∈ held k) : issued a := (h.issued_iff a).2 ⟨k, hk⟩

theorem accounted_nil (hnone : ∀ a, ¬ issued a) (hempty : ∀ k, held k = []) : Accounted issued held := by
  refine ⟨fun k => hempty k ▸ List.nodup_nil, ?_, ?_⟩
  · intro k l a hk
    rw [hempty k] at hk
    cases hk
  · intro a
    simp [hnone a, hempty]

/-- other tokens of the same places -/
theorem Accounted.congr (h : Accounted issued held) (hissued : ∀ a, issued' a ↔ issued a)
    (hheld : ∀ k, held' k = held k) : Accounted issued' held' := by
  obtain rfl : held' = held := funext hheld
  exact ⟨h.nodup, h.apart, fun a => (hissued a).trans (h.issued_iff a)⟩

/-! ## A new token -/

theorem Issues.mem_iff (h : Issues held held' l b) (m : κ) : a ∈ held' m ↔ a ∈ held m ∨ (a = b ∧ m = l) := by
  by_cases hm : m = l
  · subst hm
    simp [h.gained]
  · simp [h.frame m hm, hm]

/-- **A new token** is at its place only. -/
theorem Accounted.of_issues (h : Accounted issued held) (hissue : Issues held held' l b) (hnew : ¬ issued b)
    (hissued : ∀ a, issued' a ↔ issued a ∨ a = b) : Accounted issued' held' := by
  have hnot : ∀ m, b ∉ held m := fun m hm => hnew (h.issued_of_mem hm)
  refine ⟨?_, ?_, ?_⟩
  · intro m
    by_cases hm : m = l
    · subst hm
      rw [hissue.gained, List.nodup_append]
      refine ⟨h.nodup m, List.nodup_singleton b, ?_⟩
      rintro x hx y hy rfl
      exact hnot m (List.mem_singleton.1 hy ▸ hx)
    · rw [hissue.frame m hm]
      exact h.nodup m
  · intro m n a hm hn
    rcases (hissue.mem_iff m).1 hm with hm | ⟨rfl, rfl⟩ <;> rcases (hissue.mem_iff n).1 hn with hn | ⟨hab, rfl⟩
    · exact h.apart m n a hm hn
    · exact absurd (hab ▸ hm) (hnot m)
    · exact absurd hn (hnot n)
    · rfl
  · intro a
    simp only [hissued, h.issued_iff, hissue.mem_iff]
    refine ⟨?_, ?_⟩
    · rintro (⟨m, hm⟩ | rfl)
      · exact ⟨m, Or.inl hm⟩
      · exact ⟨l, Or.inr ⟨rfl, rfl⟩⟩
    · rintro ⟨m, hm | ⟨rfl, -⟩⟩
      · exact Or.inl ⟨m, hm⟩
      · exact Or.inr rfl

/-! ## From place to place -/

theorem Moves.mem_iff (h : Moves held held' k l b) (hacc : Accounted issued held) (m : κ) :
    a ∈ held' m ↔ (a = b ∧ m = l) ∨ (a ≠ b ∧ a ∈ held m) := by
  have hb : b ∈ held k := h.lost ▸ List.mem_cons_self
  by_cases hmk : m = k
  · subst hmk
    have hnodup := hacc.nodup m
    rw [h.lost, List.nodup_cons] at hnodup
    by_cases hab : a = b
    · subst hab
      simp [hnodup.1, h.ne]
    · simp [h.lost, hab]
  · by_cases hml : m = l
    · subst hml
      by_cases hab : a = b <;> simp [h.gained, hab]
    · by_cases hab : a = b
      · subst hab
        simp [h.frame m hmk hml, hml, hacc.elsewhere hb (Ne.symm hmk)]
      · simp [h.frame m hmk hml, hab]

/-- **A token moves** and stays one token. -/
theorem Accounted.of_moves (h : Accounted issued held) (hmove : Moves held held' k l b) : Accounted issued held' := by
  have hb : b ∈ held k := hmove.lost ▸ List.mem_cons_self
  refine ⟨?_, ?_, ?_⟩
  · intro m
    by_cases hmk : m = k
    · subst hmk
      have hnodup := h.nodup m
      rw [hmove.lost] at hnodup
      exact hnodup.of_cons
    · by_cases hml : m = l
      · subst hml
        rw [hmove.gained, List.nodup_append]
        refine ⟨h.nodup m, List.nodup_singleton b, ?_⟩
        rintro x hx y hy rfl
        exact h.elsewhere hb hmove.ne (List.mem_singleton.1 hy ▸ hx)
      · rw [hmove.frame m hmk hml]
        exact h.nodup m
  · intro m n a hm hn
    rcases (hmove.mem_iff h m).1 hm with ⟨hab, rfl⟩ | ⟨hab, hm⟩ <;>
      rcases (hmove.mem_iff h n).1 hn with ⟨hab', rfl⟩ | ⟨hab', hn⟩
    · rfl
    · exact absurd hab hab'
    · exact absurd hab' hab
    · exact h.apart m n a hm hn
  · intro a
    rw [h.issued_iff]
    simp only [hmove.mem_iff h]
    by_cases hab : a = b
    · subst hab
      exact iff_of_true ⟨k, hb⟩ ⟨l, Or.inl ⟨rfl, rfl⟩⟩
    · simp [hab]

end NetSec.Ownership
