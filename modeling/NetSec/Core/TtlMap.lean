/-
Maps whose entries live for a time: keys and values of any type, times in ℤ.

An entry is live up to and with the time its stamp and its time to live make. The map is the list of all entries ever
inserted, oldest first. `call` is one use of the map at time `t`: the live entry of the key answers, else the answer is
fetched from outside and, unless that fails, inserted.

- `OneLive.later`, `OneLive.call`: at most one entry of each key is live, as time goes on and entries come in;
- `lookup_eq_some`: then a lookup gives exactly the live entry of the key;
- `lookup_live_later_iff`: what a lookup finds is still live later exactly when the entries that have died meanwhile
  stand behind one that has not.
-/
import Mathlib.Tactic

namespace NetSec.TtlMap

variable {κ ν : Type*}

structure Entry (κ ν : Type*) where
  key : κ
  value : ν
  stamp : ℤ
  ttl : ℕ
deriving DecidableEq, Repr

def Entry.Live (t : ℤ) (e : Entry κ ν) : Prop := t ≤ e.stamp + e.ttl

instance (t : ℤ) (e : Entry κ ν) : Decidable (e.Live t) := by unfold Entry.Live; infer_instance

/-- no two entries of one key are live -/
def OneLive (t : ℤ) (l : List (Entry κ ν)) : Prop := l.Pairwise fun a b => ¬ (a.key = b.key ∧ a.Live t ∧ b.Live t)

theorem Entry.Live.earlier {t t' : ℤ} {e : Entry κ ν} (h : e.Live t') (hle : t ≤ t') : e.Live t := hle.trans h

theorem OneLive.later {t t' : ℤ} {l : List (Entry κ ν)} (h : OneLive t l) (hle : t ≤ t') : OneLive t' l :=
  h.imp fun hab hboth => hab ⟨hboth.1, hboth.2.1.earlier hle, hboth.2.2.earlier hle⟩

/-- two live entries of one key are one -/
theorem OneLive.unique {t : ℤ} {l : List (Entry κ ν)} (h : OneLive t l) {a b : Entry κ ν} (ha : a ∈ l) (hb : b ∈ l)
    (hkey : a.key = b.key) (hla : a.Live t) (hlb : b.Live t) : a = b := by
  by_contra hne
  have hsymm : Std.Symm fun a b : Entry κ ν => ¬ (a.key = b.key ∧ a.Live t ∧ b.Live t) :=
    ⟨fun _ _ hab hba => hab ⟨hba.1.symm, hba.2.2, hba.2.1⟩⟩
  exact List.Pairwise.forall h ha hb hne ⟨hkey, hla, hlb⟩

variable [DecidableEq κ]

/-- the first live entry of the key -/
def lookup (t : ℤ) (k : κ) (l : List (Entry κ ν)) : Option (Entry κ ν) := l.find? fun e => e.key = k ∧ e.Live t

/-- how a call is answered -/
inductive Answer (ν : Type*) where
  | cached (v : ν)
  | fetched (v : ν)
  | failed
deriving DecidableEq, Repr

/-- one call; `source` is what is fetched should there be no live entry -/
def call (t : ℤ) (k : κ) (source : Option (ν × ℕ)) (l : List (Entry κ ν)) : Answer ν × List (Entry κ ν) :=
  match lookup t k l with
  | some e => (.cached e.value, l)
  | none =>
    match source with
    | some (v, ttl) => (.fetched v, l ++ [⟨k, v, t, ttl⟩])
    | none => (.failed, l)

theorem lookup_eq_none {t : ℤ} {k : κ} {l : List (Entry κ ν)} :
    lookup t k l = none ↔ ∀ e ∈ l, e.key = k → ¬ e.Live t := by
  simp [lookup]

/-- **A lookup gives exactly the live entry of the key.** -/
theorem lookup_eq_some {t : ℤ} {k : κ} {l : List (Entry κ ν)} (h : OneLive t l) {e : Entry κ ν} :
    lookup t k l = some e ↔ e ∈ l ∧ e.key = k ∧ e.Live t := by
  refine ⟨?_, ?_⟩
  · intro hl
    have hprop := List.find?_some hl
    exact ⟨List.mem_of_find?_eq_some hl, by simpa using hprop⟩
  · intro ⟨hmem, hkey, hlive⟩
    cases hl : lookup t k l with
    | none => exact absurd hlive (lookup_eq_none.1 hl e hmem hkey)
    | some e' =>
      have hprop : e'.key = k ∧ e'.Live t := by simpa using List.find?_some hl
      rw [h.unique (List.mem_of_find?_eq_some hl) hmem (hprop.1.trans hkey.symm) hprop.2 hlive]

/-- **Is what is found still live later?** -/
theorem lookup_live_later_iff {t t' : ℤ} (hle : t ≤ t') (k : κ) (l : List (Entry κ ν)) :
    (∀ e, lookup t k l = some e → e.Live t') ↔
      ∀ front e behind, l = front ++ e :: behind → e.key = k → e.Live t → ¬ e.Live t' →
        ∃ e' ∈ front, e'.key = k ∧ e'.Live t' := by
  refine ⟨?_, ?_⟩
  · rintro h front e behind rfl hkey hlive hdead
    -- the lookup stops in front of `e`, or at it
    cases hfront : lookup t k front with
    | some e' =>
      have hl : lookup t k (front ++ e :: behind) = some e' := by
        unfold lookup at hfront ⊢
        rw [List.find?_append, hfront, Option.some_or]
      have hkey' : e'.key = k ∧ e'.Live t := by simpa using List.find?_some hfront
      exact ⟨e', List.mem_of_find?_eq_some hfront, hkey'.1, h e' hl⟩
    | none =>
      have hl : lookup t k (front ++ e :: behind) = some e := by
        unfold lookup at hfront ⊢
        rw [List.find?_append, hfront, Option.none_or]
        exact List.find?_cons_of_pos (by simpa using ⟨hkey, hlive⟩)
      exact absurd (h e hl) hdead
  · intro h e hl
    obtain ⟨hprop, front, behind, rfl, hbefore⟩ := List.find?_eq_some_iff_append.1 hl
    have hprop : e.key = k ∧ e.Live t := by simpa using hprop
    by_contra hdead
    obtain ⟨e', hmem, hkey', hlive'⟩ := h front e behind rfl hprop.1 hprop.2 hdead
    have hno := hbefore e' hmem
    simp only [hkey', hlive'.earlier hle, and_self, decide_true, Bool.not_true, Bool.false_eq_true] at hno

/-- **Calls keep entries unique.** -/
theorem OneLive.call {t : ℤ} {l : List (Entry κ ν)} (h : OneLive t l) (k : κ) (source : Option (ν × ℕ)) :
    OneLive t (call t k source l).2 := by
  unfold TtlMap.call
  cases hl : lookup t k l with
  | some e => exact h
  | none =>
    cases source with
    | none => exact h
    | some s =>
      refine List.pairwise_append.2 ⟨h, List.pairwise_singleton _ _, ?_⟩
      intro a ha b hb hboth
      rw [List.mem_singleton.1 hb] at hboth
      exact lookup_eq_none.1 hl a ha hboth.1 hboth.2.1

end NetSec.TtlMap
