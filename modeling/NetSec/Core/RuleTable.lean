/-
Rule tables: lists of rules under add-if-absent and delete-first.

A table is a list of rules over any type with decidable equality. `addAbsent r t` appends `r` unless it is there;
`deleteFirst r t` removes the first `r` if there is one. These are the two operations of a helper that tests for a
rule before it adds or deletes it.

- `mem_addAbsent`, `count_addAbsent_of_ne`: after an addition `r` is there, nothing else changes;
- `mem_deleteFirst`: a deletion really removes a rule that occurs at most once, and changes nothing else;
- `count_addAbsent_le`, `count_deleteFirst_le`: a rule that occurs at most once keeps occurring at most once.

Where a table decides by its first rule that matches:
- `findSome?_iff_of_agree`: if all that match agree, the order of the rules makes no difference.

An `Edit` is one of the two operations with its rule, `replay` carries out a list of them:
- `mem_replay`, `mem_replay_of_mem`: rules come from the table or from an edit, and go by an edit only;
- `filter_replay`: rules that no edit names stay as they are, in number and order;
- `replay_eq_self_iff`: edits of rules that are not there restore the table exactly when none of them stays;
- `standing_append_toList`: whether an addition of a rule stands, edit by edit;
- `remove_replay_add`: adding some rules, editing others and removing the former again is removing and editing only.
-/
import Mathlib.Tactic

namespace NetSec.RuleTable

variable {ρ : Type*} [DecidableEq ρ]

def addAbsent (r : ρ) (t : List ρ) : List ρ := if r ∈ t then t else t ++ [r]

def deleteFirst (r : ρ) (t : List ρ) : List ρ := if r ∈ t then t.erase r else t

@[simp] theorem mem_addAbsent {r x : ρ} {t : List ρ} : x ∈ addAbsent r t ↔ x ∈ t ∨ x = r := by
  unfold addAbsent
  split_ifs with h
  · exact ⟨Or.inl, fun hx => hx.elim id fun e => e ▸ h⟩
  · simp

theorem count_addAbsent_of_ne {r x : ρ} (t : List ρ) (hx : x ≠ r) : (addAbsent r t).count x = t.count x := by
  unfold addAbsent
  split_ifs
  · rfl
  · simp [List.count_append, List.count_eq_zero_of_not_mem (a := x) (l := [r]) (by simpa using hx)]

theorem count_addAbsent_le {r x : ρ} {t : List ρ} (h : t.count x ≤ 1) : (addAbsent r t).count x ≤ 1 := by
  by_cases hx : x = r
  · subst hx
    unfold addAbsent
    split_ifs with hm
    · exact h
    · simp [List.count_append, List.count_eq_zero_of_not_mem hm]
  · rw [count_addAbsent_of_ne t hx]; exact h

/-- with or without the rule there, a tested deletion is `List.erase` -/
theorem deleteFirst_eq_erase (r : ρ) (t : List ρ) : deleteFirst r t = t.erase r := by
  unfold deleteFirst
  split_ifs with h
  · rfl
  · exact (List.erase_of_not_mem h).symm

theorem mem_deleteFirst_of_ne {r x : ρ} {t : List ρ} (hx : x ≠ r) : x ∈ deleteFirst r t ↔ x ∈ t := by
  rw [deleteFirst_eq_erase]; exact List.mem_erase_of_ne hx

/-- **A completed deletion leaves the rule absent** when it occurred at most once -/
theorem not_mem_deleteFirst {r : ρ} {t : List ρ} (h : t.count r ≤ 1) : r ∉ deleteFirst r t := by
  rw [deleteFirst_eq_erase]
  apply List.count_eq_zero.1
  rw [List.count_erase_self]; omega

theorem mem_deleteFirst {r x : ρ} {t : List ρ} (h : t.count r ≤ 1) : x ∈ deleteFirst r t ↔ x ∈ t ∧ x ≠ r := by
  by_cases hx : x = r
  · subst hx
    simp [not_mem_deleteFirst h]
  · simp [mem_deleteFirst_of_ne hx, hx]

theorem count_deleteFirst_le {r x : ρ} {t : List ρ} (h : t.count x ≤ 1) : (deleteFirst r t).count x ≤ 1 := by
  rw [deleteFirst_eq_erase]
  exact (List.erase_sublist.count_le x).trans h

theorem deleteFirst_subset (r : ρ) (t : List ρ) : deleteFirst r t ⊆ t := by
  rw [deleteFirst_eq_erase]
  exact List.erase_subset

/-! ## The first match -/

/-- **Agreeing rules decide in any order.** -/
theorem findSome?_iff_of_agree {α ν : Type*} {f : α → Option ν} {t : List α} {v : ν}
    (h : ∀ r ∈ t, ∀ w, f r = some w → w = v) : t.findSome? f = some v ↔ ∃ r ∈ t, f r = some v := by
  refine ⟨List.exists_of_findSome?_eq_some, ?_⟩
  rintro ⟨r, hr, hv⟩
  cases hfirst : t.findSome? f with
  | none =>
    rw [List.findSome?_eq_none_iff] at hfirst
    rw [hfirst r hr] at hv
    cases hv
  | some w =>
    obtain ⟨r', hr', hw⟩ := List.exists_of_findSome?_eq_some hfirst
    rw [h r' hr' w hw]

/-! ## Edits -/

inductive Edit (ρ : Type*) where
  | add (r : ρ)
  | remove (r : ρ)
deriving DecidableEq, Repr

def Edit.rule : Edit ρ → ρ
  | .add r => r
  | .remove r => r

def Edit.apply (t : List ρ) : Edit ρ → List ρ
  | .add r => addAbsent r t
  | .remove r => deleteFirst r t

def replay (edits : List (Edit ρ)) (t : List ρ) : List ρ := edits.foldl Edit.apply t

@[simp] theorem replay_nil (t : List ρ) : replay [] t = t := rfl

@[simp] theorem replay_cons (e : Edit ρ) (edits : List (Edit ρ)) (t : List ρ) :
    replay (e :: edits) t = replay edits (e.apply t) := rfl

theorem replay_append (edits edits' : List (Edit ρ)) (t : List ρ) :
    replay (edits ++ edits') t = replay edits' (replay edits t) := List.foldl_append

/-- a rule of the table was there, or has been added -/
theorem mem_replay {edits : List (Edit ρ)} {t : List ρ} {r : ρ} (h : r ∈ replay edits t) :
    r ∈ t ∨ Edit.add r ∈ edits := by
  induction edits generalizing t with
  | nil => exact Or.inl h
  | cons e edits ih =>
    rcases ih h with h | h
    · cases e with
      | add x =>
        rcases mem_addAbsent.1 h with h | rfl
        · exact Or.inl h
        · exact Or.inr List.mem_cons_self
      | remove x => exact Or.inl (deleteFirst_subset x t h)
    · exact Or.inr (List.mem_cons_of_mem e h)

/-- a rule of the table that no edit removes stays -/
theorem mem_replay_of_mem {edits : List (Edit ρ)} {t : List ρ} {r : ρ} (hr : r ∈ t) (h : Edit.remove r ∉ edits) :
    r ∈ replay edits t := by
  induction edits generalizing t with
  | nil => exact hr
  | cons e edits ih =>
    refine ih ?_ fun hmem => h (List.mem_cons_of_mem e hmem)
    cases e with
    | add x => exact mem_addAbsent.2 (Or.inl hr)
    | remove x =>
      refine (mem_deleteFirst_of_ne ?_).2 hr
      rintro rfl
      exact h List.mem_cons_self

theorem filter_apply {p : ρ → Bool} {e : Edit ρ} (h : p e.rule = false) (t : List ρ) :
    (e.apply t).filter p = t.filter p := by
  cases e with
  | add r =>
    simp only [Edit.apply, addAbsent]
    split_ifs
    · rfl
    · rw [List.filter_append, List.filter_singleton, show p r = false from h]
      exact List.append_nil _
  | remove r =>
    simp only [Edit.apply, deleteFirst]
    split_ifs with hr
    · obtain ⟨a, b, -, rfl, he⟩ := List.exists_erase_eq hr
      rw [he, List.filter_append, List.filter_append, List.filter_cons, show p r = false from h]
      rfl
    · rfl

/-- **Rules that no edit names stay**, in number and order. -/
theorem filter_replay {p : ρ → Bool} {edits : List (Edit ρ)} (h : ∀ e ∈ edits, p e.rule = false) (t : List ρ) :
    (replay edits t).filter p = t.filter p := by
  induction edits generalizing t with
  | nil => rfl
  | cons e edits ih =>
    rw [replay_cons, ih (fun e' he' => h e' (List.mem_cons_of_mem e he')), filter_apply (h e List.mem_cons_self)]

theorem count_replay {edits : List (Edit ρ)} {r : ρ} (h : ∀ e ∈ edits, e.rule ≠ r) (t : List ρ) :
    (replay edits t).count r = t.count r := by
  have hp : ∀ e ∈ edits, (e.rule == r) = false := fun e he => beq_eq_false_iff_ne.2 (h e he)
  have hfilter := congrArg List.length (filter_replay (p := (· == r)) hp t)
  rwa [← List.countP_eq_length_filter, ← List.countP_eq_length_filter] at hfilter

/-- **Restored.** Edits of rules that are not in the table restore it exactly when none of the rules stays. -/
theorem replay_eq_self_iff {edits : List (Edit ρ)} {t : List ρ} (h : ∀ e ∈ edits, e.rule ∉ t) :
    replay edits t = t ↔ ∀ e ∈ edits, e.rule ∉ replay edits t := by
  refine ⟨fun he => by rw [he]; exact h, ?_⟩
  intro habsent
  let p : ρ → Bool := fun r => decide (∀ e ∈ edits, e.rule ≠ r)
  have hall : ∀ l : List ρ, (∀ e ∈ edits, e.rule ∉ l) → l.filter p = l := by
    intro l hl
    apply List.filter_eq_self.2
    intro r hr
    apply decide_eq_true
    rintro e he rfl
    exact hl e he hr
  have hnamed : ∀ e ∈ edits, p e.rule = false := by
    intro e he
    apply decide_eq_false
    intro hne
    exact hne e he rfl
  calc replay edits t = (replay edits t).filter p := (hall _ habsent).symm
    _ = t.filter p := filter_replay hnamed t
    _ = t := hall t h

/-- an addition of the rule that no later edit removes -/
def Standing (r : ρ) (edits : List (Edit ρ)) : Prop := ∃ a b, edits = a ++ .add r :: b ∧ .remove r ∉ b

omit [DecidableEq ρ] in
theorem not_standing_nil (r : ρ) : ¬ Standing r [] := by
  rintro ⟨a, b, h, -⟩
  exact absurd h (by simp)

omit [DecidableEq ρ] in
/-- what the last edit, if there is one, does to it -/
theorem standing_append_toList {r : ρ} {edits : List (Edit ρ)} {e : Option (Edit ρ)} :
    Standing r (edits ++ e.toList) ↔ e = some (.add r) ∨ (e ≠ some (.remove r) ∧ Standing r edits) := by
  cases e with
  | none => simp
  | some e =>
    simp only [Option.toList_some, Option.some.injEq, ne_eq]
    refine ⟨?_, ?_⟩
    · rintro ⟨a, b, h, hb⟩
      rcases List.eq_nil_or_concat' b with rfl | ⟨b', e', rfl⟩
      · exact Or.inl (List.singleton_inj.1 (List.append_inj' h rfl).2)
      · rw [← List.cons_append, ← List.append_assoc] at h
        obtain ⟨rfl, he⟩ := List.append_inj' h rfl
        obtain rfl := List.singleton_inj.1 he
        exact Or.inr ⟨fun he => hb (by simp [he]), a, b', rfl, fun hmem => hb (List.mem_append_left _ hmem)⟩
    · rintro (rfl | ⟨hne, a, b, rfl, hb⟩)
      · exact ⟨edits, [], rfl, List.not_mem_nil⟩
      · refine ⟨a, b ++ [e], by simp, ?_⟩
        rw [List.mem_append, List.mem_singleton]
        rintro (hmem | rfl)
        · exact hb hmem
        · exact hne rfl

theorem deleteFirst_addAbsent_self (r : ρ) (t : List ρ) : deleteFirst r (addAbsent r t) = deleteFirst r t := by
  rw [deleteFirst_eq_erase, deleteFirst_eq_erase]
  unfold addAbsent
  split_ifs with h
  · rfl
  · rw [List.erase_append_right _ h, List.erase_of_not_mem h]
    simp

theorem deleteFirst_apply {r : ρ} {e : Edit ρ} (h : e.rule ≠ r) (t : List ρ) :
    deleteFirst r (e.apply t) = e.apply (deleteFirst r t) := by
  cases e with
  | add x =>
    have hmem : x ∈ t.erase r ↔ x ∈ t := List.mem_erase_of_ne h
    simp only [Edit.apply, addAbsent, deleteFirst_eq_erase, hmem]
    split_ifs with hx
    · rfl
    · by_cases hr : r ∈ t
      · exact List.erase_append_left _ hr
      · rw [List.erase_append_right _ hr, List.erase_of_not_mem hr, List.erase_of_not_mem]
        simpa using fun he => h he.symm
  | remove x =>
    simp only [Edit.apply, deleteFirst_eq_erase]
    exact List.erase_comm x r

/-- removals and edits of other rules can be exchanged -/
theorem remove_replay_comm {rs : List ρ} {edits : List (Edit ρ)} (h : ∀ e ∈ edits, e.rule ∉ rs) (t : List ρ) :
    replay (rs.map .remove) (replay edits t) = replay edits (replay (rs.map .remove) t) := by
  induction edits generalizing t with
  | nil => rfl
  | cons e edits ih =>
    have hone : ∀ t : List ρ, replay (rs.map .remove) (e.apply t) = e.apply (replay (rs.map .remove) t) := by
      have hrs := h e List.mem_cons_self
      clear h ih
      intro t
      induction rs generalizing t with
      | nil => rfl
      | cons r rs ihr =>
        obtain ⟨hr, hrs⟩ := not_or.1 (mt List.mem_cons.2 hrs)
        calc replay ((r :: rs).map .remove) (e.apply t) = replay (rs.map .remove) (deleteFirst r (e.apply t)) := rfl
          _ = replay (rs.map .remove) (e.apply (deleteFirst r t)) := by rw [deleteFirst_apply hr]
          _ = e.apply (replay ((r :: rs).map .remove) t) := ihr hrs _
    rw [replay_cons, replay_cons, ih (fun e' he' => h e' (List.mem_cons_of_mem e he')), hone]

theorem remove_add {rs : List ρ} (hrs : rs.Nodup) (t : List ρ) :
    replay (rs.map .remove) (replay (rs.map .add) t) = replay (rs.map .remove) t := by
  induction rs generalizing t with
  | nil => rfl
  | cons r rs ih =>
    obtain ⟨hr, hrs⟩ := List.nodup_cons.1 hrs
    have hne : ∀ e ∈ rs.map Edit.add, e.rule ∉ [r] := by
      intro e he
      obtain ⟨x, hx, rfl⟩ := List.mem_map.1 he
      rw [List.mem_singleton]
      rintro rfl
      exact hr hx
    calc replay (rs.map .remove) (deleteFirst r (replay (rs.map .add) (addAbsent r t)))
        = replay (rs.map .remove) (replay (rs.map .add) (deleteFirst r (addAbsent r t))) :=
          congrArg _ (remove_replay_comm hne _)
      _ = replay (rs.map .remove) (deleteFirst r (addAbsent r t)) := ih hrs _
      _ = replay (rs.map .remove) (deleteFirst r t) := by rw [deleteFirst_addAbsent_self]

/-- **Set-up and tear-down.** Between adding rules and removing them again, edits of other rules work as if the former
had only been removed. -/
theorem remove_replay_add {rs : List ρ} (hrs : rs.Nodup) {edits : List (Edit ρ)} (h : ∀ e ∈ edits, e.rule ∉ rs)
    (t : List ρ) :
    replay (rs.map .remove) (replay edits (replay (rs.map .add) t)) = replay (rs.map .remove) (replay edits t) := by
  rw [remove_replay_comm h, remove_add hrs, ← remove_replay_comm h]

/-- removing rules that are not there -/
theorem remove_absent {rs t : List ρ} (h : ∀ r ∈ rs, r ∉ t) : replay (rs.map .remove) t = t := by
  induction rs with
  | nil => rfl
  | cons r rs ih =>
    have hr : deleteFirst r t = t := if_neg (h r List.mem_cons_self)
    calc replay ((r :: rs).map .remove) t = replay (rs.map .remove) (deleteFirst r t) := rfl
      _ = replay (rs.map .remove) t := by rw [hr]
      _ = t := ih fun x hx => h x (List.mem_cons_of_mem r hx)

theorem count_remove (rs t : List ρ) (x : ρ) : (replay (rs.map .remove) t).count x = t.count x - rs.count x := by
  induction rs generalizing t with
  | nil => simp
  | cons r rs ih =>
    rw [List.map_cons, replay_cons, ih, Edit.apply, deleteFirst_eq_erase, List.count_erase, List.count_cons]
    omega

end NetSec.RuleTable
