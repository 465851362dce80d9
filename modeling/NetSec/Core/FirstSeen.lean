/-
A monitor that goes by what it saw first: keys and values of any types, and a test `fits w v` of a value `v` against the
first value `w` of its key.

The first value of a key is kept for good. A later one that does not fit it is odd, and the first odd value of a key
raises an alarm, the only one there is for that key.

- `first_after`, `alarmed_after`: what the monitor remembers is what the history says;
- `mem_alarms`, `nodup_alarms`: a key has raised an alarm exactly when one of its values was odd, and only one;
- `suspect_append`: behind its first value a key is suspect when one of its values does not fit that one, whatever the
  other keys do in between.
-/
import Mathlib.Tactic

namespace NetSec.FirstSeen

variable {κ ν : Type*} [DecidableEq κ]

structure Seen (κ ν : Type*) where
  first : κ → Option ν
  alarmed : κ → Bool

def unseen : Seen κ ν := ⟨fun _ => none, fun _ => false⟩

/-- the value is not the first of its key, and does not fit that one -/
def Seen.odd (fits : ν → ν → Bool) (m : Seen κ ν) (k : κ) (v : ν) : Bool := (m.first k).any fun w => !fits w v

def Seen.observe (fits : ν → ν → Bool) (m : Seen κ ν) (x : κ × ν) : Seen κ ν :=
  match m.first x.1 with
  | none => { m with first := Function.update m.first x.1 (some x.2) }
  | some w => if fits w x.2 then m else { m with alarmed := Function.update m.alarmed x.1 true }

def Seen.after (fits : ν → ν → Bool) (m : Seen κ ν) (h : List (κ × ν)) : Seen κ ν := h.foldl (Seen.observe fits) m

/-- the keys that raise an alarm, in order -/
def Seen.alarms (fits : ν → ν → Bool) : Seen κ ν → List (κ × ν) → List κ
  | _, [] => []
  | m, x :: h => (if m.odd fits x.1 x.2 && !m.alarmed x.1 then [x.1] else []) ++ (m.observe fits x).alarms fits h

section Observe

variable {fits : ν → ν → Bool} {m : Seen κ ν} {k : κ} {v w : ν}

theorem observe_fresh (h : m.first k = none) :
    m.observe fits (k, v) = { m with first := Function.update m.first k (some v) } := by
  simp only [Seen.observe, h]

theorem observe_fits (h : m.first k = some w) (hfits : fits w v = true) : m.observe fits (k, v) = m := by
  simp only [Seen.observe, h, hfits, if_true]

theorem observe_odd (h : m.first k = some w) (hodd : fits w v = false) :
    m.observe fits (k, v) = { m with alarmed := Function.update m.alarmed k true } := by
  simp only [Seen.observe, h, hodd, Bool.false_eq_true, if_false]

theorem alarms_singleton : m.alarms fits [(k, v)] = if m.odd fits k v && !m.alarmed k then [k] else [] := by
  simp [Seen.alarms]

end Observe

/-! ## What the history says -/

def firstOf (k : κ) (h : List (κ × ν)) : Option ν := (h.find? fun x => x.1 = k).map Prod.snd

def Odd (fits : ν → ν → Bool) (h : List (κ × ν)) (k : κ) (v : ν) : Prop :=
  ∃ w, firstOf k h = some w ∧ fits w v = false

/-- one of the values of the key was odd when it came -/
def Suspect (fits : ν → ν → Bool) (h : List (κ × ν)) (k : κ) : Prop := ∃ pre v, pre ++ [(k, v)] <+: h ∧ Odd fits pre k v

theorem mem_of_firstOf {k : κ} {h : List (κ × ν)} {v : ν} (hv : firstOf k h = some v) : (k, v) ∈ h := by
  obtain ⟨⟨k', v'⟩, hfind, rfl⟩ := Option.map_eq_some_iff.1 hv
  have hk : k' = k := by simpa using List.find?_some hfind
  exact hk ▸ List.mem_of_find?_eq_some hfind

theorem firstOf_append (k : κ) (h h' : List (κ × ν)) : firstOf k (h ++ h') = (firstOf k h).or (firstOf k h') := by
  simp only [firstOf, List.find?_append]
  cases h.find? fun x => x.1 = k <;> rfl

theorem firstOf_append_of_some {k : κ} {h : List (κ × ν)} {w : ν} (hw : firstOf k h = some w) (h' : List (κ × ν)) :
    firstOf k (h ++ h') = some w := by
  rw [firstOf_append, hw]
  rfl

theorem firstOf_singleton (k : κ) (x : κ × ν) : firstOf k [x] = if x.1 = k then some x.2 else none := by
  by_cases hx : x.1 = k
  · simp [firstOf, hx]
  · simp [firstOf, hx]

theorem suspect_nil (fits : ν → ν → Bool) (k : κ) : ¬ Suspect fits ([] : List (κ × ν)) k := by
  rintro ⟨pre, v, hpre, -⟩
  simp at hpre

/-- one more observation -/
theorem suspect_concat {fits : ν → ν → Bool} {h : List (κ × ν)} {x : κ × ν} {k : κ} :
    Suspect fits (h ++ [x]) k ↔ Suspect fits h k ∨ (x.1 = k ∧ Odd fits h k x.2) := by
  refine ⟨?_, ?_⟩
  · rintro ⟨pre, v, hpre, hodd⟩
    rcases List.prefix_concat_iff.1 hpre with heq | hpre
    · obtain ⟨rfl, hx⟩ := List.append_inj' heq rfl
      obtain rfl := List.singleton_injective hx
      exact Or.inr ⟨rfl, hodd⟩
    · exact Or.inl ⟨pre, v, hpre, hodd⟩
  · rintro (⟨pre, v, hpre, hodd⟩ | ⟨rfl, hodd⟩)
    · exact ⟨pre, v, hpre.trans (List.prefix_append h [x]), hodd⟩
    · exact ⟨h, x.2, List.prefix_refl _, hodd⟩

/-- **Behind the first value.** -/
theorem suspect_append {fits : ν → ν → Bool} {h : List (κ × ν)} {k : κ} {w : ν} (hw : firstOf k h = some w)
    (h' : List (κ × ν)) : Suspect fits (h ++ h') k ↔ Suspect fits h k ∨ ∃ v, (k, v) ∈ h' ∧ fits w v = false := by
  induction h' using List.reverseRecOn with
  | nil => simp
  | append_singleton h' x ih =>
    have hodd : Odd fits (h ++ h') k x.2 ↔ fits w x.2 = false := by
      simp [Odd, firstOf_append_of_some hw h']
    rw [← List.append_assoc, suspect_concat, ih, hodd]
    simp only [List.mem_append, List.mem_singleton]
    refine ⟨?_, ?_⟩
    · rintro ((hs | ⟨v, hv, hf⟩) | ⟨rfl, hf⟩)
      · exact Or.inl hs
      · exact Or.inr ⟨v, Or.inl hv, hf⟩
      · exact Or.inr ⟨x.2, Or.inr rfl, hf⟩
    · rintro (hs | ⟨v, hv | rfl, hf⟩)
      · exact Or.inl (Or.inl hs)
      · exact Or.inl (Or.inr ⟨v, hv, hf⟩)
      · exact Or.inr ⟨rfl, hf⟩

/-! ## What the monitor remembers -/

theorem after_concat (fits : ν → ν → Bool) (m : Seen κ ν) (h : List (κ × ν)) (x : κ × ν) :
    m.after fits (h ++ [x]) = (m.after fits h).observe fits x := List.foldl_append

theorem first_observe (fits : ν → ν → Bool) (m : Seen κ ν) (x : κ × ν) (k : κ) :
    (m.observe fits x).first k = (m.first k).or (if x.1 = k then some x.2 else none) := by
  unfold Seen.observe
  by_cases hk : x.1 = k
  · subst hk
    split
    · rename_i hnone
      simp [hnone]
    · rename_i w hw
      split_ifs <;> simp [hw]
  · split
    · simp [Function.update_of_ne (Ne.symm hk), hk]
    · split_ifs <;> simp

theorem alarmed_observe (fits : ν → ν → Bool) (m : Seen κ ν) (x : κ × ν) (k : κ) :
    (m.observe fits x).alarmed k = (m.alarmed k || (decide (x.1 = k) && m.odd fits x.1 x.2)) := by
  unfold Seen.observe Seen.odd
  by_cases hk : x.1 = k
  · subst hk
    split
    · rename_i hnone
      simp [hnone]
    · rename_i w hw
      split_ifs with hfits <;> simp [hw, hfits]
  · split
    · simp [hk]
    · split_ifs
      · simp [hk]
      · simp [Function.update_of_ne (Ne.symm hk), hk]

/-- **The first values** are those of the history. -/
theorem first_after (fits : ν → ν → Bool) (h : List (κ × ν)) (k : κ) :
    ((unseen : Seen κ ν).after fits h).first k = firstOf k h := by
  induction h using List.reverseRecOn with
  | nil => rfl
  | append_singleton h x ih => rw [after_concat, first_observe, ih, firstOf_append, firstOf_singleton]

theorem odd_after {fits : ν → ν → Bool} {h : List (κ × ν)} {k : κ} {v : ν} :
    ((unseen : Seen κ ν).after fits h).odd fits k v = true ↔ Odd fits h k v := by
  rw [Seen.odd, first_after, Odd]
  cases firstOf k h with
  | none => simp
  | some w => simp

/-- **Alarmed** is what is suspect. -/
theorem alarmed_after {fits : ν → ν → Bool} {h : List (κ × ν)} {k : κ} :
    ((unseen : Seen κ ν).after fits h).alarmed k = true ↔ Suspect fits h k := by
  induction h using List.reverseRecOn with
  | nil => exact iff_of_false Bool.false_ne_true (suspect_nil fits k)
  | append_singleton h x ih =>
    rw [after_concat, alarmed_observe, suspect_concat, Bool.or_eq_true, Bool.and_eq_true, decide_eq_true_eq, ih,
      odd_after]
    exact or_congr_right (and_congr_right fun hx => by rw [hx])

/-! ## Alarms -/

theorem alarms_append (fits : ν → ν → Bool) (m : Seen κ ν) (h h' : List (κ × ν)) :
    m.alarms fits (h ++ h') = m.alarms fits h ++ (m.after fits h).alarms fits h' := by
  induction h generalizing m with
  | nil => rfl
  | cons x h ih =>
    rw [List.cons_append, Seen.alarms, ih, Seen.alarms, List.append_assoc]
    rfl

theorem alarms_concat (fits : ν → ν → Bool) (m : Seen κ ν) (h : List (κ × ν)) (x : κ × ν) :
    m.alarms fits (h ++ [x]) = m.alarms fits h ++
      if (m.after fits h).odd fits x.1 x.2 && !(m.after fits h).alarmed x.1 then [x.1] else [] := by
  rw [alarms_append, Seen.alarms, Seen.alarms, List.append_nil]

/-- **An alarm for each suspect.** -/
theorem mem_alarms {fits : ν → ν → Bool} {h : List (κ × ν)} {k : κ} :
    k ∈ (unseen : Seen κ ν).alarms fits h ↔ Suspect fits h k := by
  induction h using List.reverseRecOn with
  | nil => exact iff_of_false List.not_mem_nil (suspect_nil fits k)
  | append_singleton h x ih =>
    have hsusp : ((unseen : Seen κ ν).after fits h).alarmed k = true ↔ Suspect fits h k := alarmed_after
    rw [alarms_concat, List.mem_append, ih, suspect_concat]
    refine ⟨?_, ?_⟩
    · rintro (hold | hnew)
      · exact Or.inl hold
      · split_ifs at hnew with hraise
        · obtain rfl := List.mem_singleton.1 hnew
          exact Or.inr ⟨rfl, odd_after.1 (Bool.and_eq_true_iff.1 hraise).1⟩
        · cases hnew
    · rintro (hold | ⟨rfl, hodd⟩)
      · exact Or.inl hold
      · cases hal : ((unseen : Seen κ ν).after fits h).alarmed x.1 with
        | true => exact Or.inl (hsusp.1 hal)
        | false => simp [odd_after.2 hodd]

/-- **One alarm for a key.** -/
theorem nodup_alarms (fits : ν → ν → Bool) (h : List (κ × ν)) : ((unseen : Seen κ ν).alarms fits h).Nodup := by
  induction h using List.reverseRecOn with
  | nil => exact List.nodup_nil
  | append_singleton h x ih =>
    rw [alarms_concat]
    split_ifs with hraise
    · refine List.nodup_append'.2 ⟨ih, List.nodup_singleton _, ?_⟩
      intro k hold hnew
      obtain rfl := List.mem_singleton.1 hnew
      rw [mem_alarms, ← alarmed_after] at hold
      simp [hold] at hraise
    · rw [List.append_nil]
      exact ih

end NetSec.FirstSeen
