/-
Loops that count in machine words: `for (i = low; i <= high; i++)` with an `i` of `w` bits.

`loopTo high body fuel i s` runs the body on `i`, `i + 1`, ... while the counter is not above `high`, which it never is
when `high` is the largest word; a body can fail, and the loop takes a number of rounds. `between low high` lists the
words from one to the other, `count low high` is their number.

- `loopTo_runs`: below the largest word the loop comes to its end, with what the body preserves;
- `loopTo_below_top`, `loopTo_preserves`: a loop that came to its end was below the largest word, and what the body
  preserves whenever it gives a result holds then;
- `mem_between`, `between_ascending`: the words it runs on.
-/
import Mathlib.Tactic

namespace NetSec.WordLoop

variable {σ : Type*} {w : ℕ}

def loopTo (high : BitVec w) (body : BitVec w → σ → Option σ) : ℕ → BitVec w → σ → Option σ
  | 0, _, _ => none
  | fuel + 1, i, s => if i ≤ high then (body i s).bind (loopTo high body fuel (i + 1)) else some s

/-- the `n`-th word from `low` on -/
def nth (low : BitVec w) (n : ℕ) : BitVec w := low + BitVec.ofNat w n

/-- how many words there are from `low` to `high` -/
def count (low high : BitVec w) : ℕ := high.toNat + 1 - low.toNat

def between (low high : BitVec w) : List (BitVec w) := (List.range (count low high)).map (nth low)

theorem nth_zero (low : BitVec w) : nth low 0 = low := BitVec.add_zero low

theorem nth_succ (low : BitVec w) (n : ℕ) : nth low n + 1 = nth low (n + 1) := by
  rw [nth, nth, BitVec.add_assoc, BitVec.ofNat_add]
  rfl

theorem toNat_nth {low : BitVec w} {n : ℕ} (h : low.toNat + n < 2 ^ w) : (nth low n).toNat = low.toNat + n := by
  rw [nth, BitVec.toNat_add, BitVec.toNat_ofNat, Nat.add_mod_mod]
  exact Nat.mod_eq_of_lt h

theorem nth_sub (low : BitVec w) (n : ℕ) : nth low n - low = BitVec.ofNat w n := by
  rw [nth, BitVec.add_comm, BitVec.add_sub_cancel]

theorem lt_count {low high : BitVec w} {n : ℕ} : n < count low high ↔ low.toNat + n ≤ high.toNat := by
  unfold count
  omega

/-- the words up to the one past `high` do not wrap -/
theorem add_lt_of_le_count {low high : BitVec w} (htop : high.toNat + 1 < 2 ^ w) {n : ℕ} (hn : n ≤ count low high) :
    low.toNat + n < 2 ^ w := by
  have hlow := low.isLt
  unfold count at hn
  omega

theorem nth_le_iff {low high : BitVec w} (htop : high.toNat + 1 < 2 ^ w) {n : ℕ} (hn : n ≤ count low high) :
    nth low n ≤ high ↔ n < count low high := by
  rw [BitVec.le_def, toNat_nth (add_lt_of_le_count htop hn), lt_count]

/-! ## Loops that come to their end -/

/-- the last `m` rounds -/
theorem loopTo_last {low high : BitVec w} {body : BitVec w → σ → Option σ} (P : ℕ → σ → Prop)
    (htop : high.toNat + 1 < 2 ^ w)
    (hbody : ∀ n s, n < count low high → P n s → ∃ s', body (nth low n) s = some s' ∧ P (n + 1) s')
    {m n : ℕ} (hm : n + m = count low high) {fuel : ℕ} (hfuel : m < fuel) {s : σ} (hs : P n s) :
    ∃ s', loopTo high body fuel (nth low n) s = some s' ∧ P (count low high) s' := by
  induction m generalizing n fuel s with
  | zero =>
    obtain ⟨fuel, rfl⟩ := Nat.exists_eq_succ_of_ne_zero hfuel.ne'
    have hpast : ¬ nth low n ≤ high := fun hle => ((nth_le_iff htop hm.le).1 hle).ne hm
    refine ⟨s, if_neg hpast, ?_⟩
    rwa [← hm]
  | succ m ih =>
    obtain ⟨fuel, rfl⟩ := Nat.exists_eq_succ_of_ne_zero (Nat.ne_zero_of_lt hfuel)
    have hmore : n < count low high := by omega
    obtain ⟨s₁, hround, hs₁⟩ := hbody n s hmore hs
    obtain ⟨s', hrest, hs'⟩ := ih (n := n + 1) (by omega) (Nat.lt_of_succ_lt_succ hfuel) hs₁
    refine ⟨s', ?_, hs'⟩
    rw [loopTo, if_pos ((nth_le_iff htop hmore.le).2 hmore), hround, Option.bind_some, nth_succ]
    exact hrest

/-- **The loop comes to its end**, after as many rounds as there are words. -/
theorem loopTo_runs {low high : BitVec w} {body : BitVec w → σ → Option σ} (P : ℕ → σ → Prop)
    (htop : high.toNat + 1 < 2 ^ w)
    (hbody : ∀ n s, n < count low high → P n s → ∃ s', body (nth low n) s = some s' ∧ P (n + 1) s') {fuel : ℕ}
    (hfuel : count low high < fuel) {s : σ} (hs : P 0 s) :
    ∃ s', loopTo high body fuel low s = some s' ∧ P (count low high) s' := by
  have hloop := loopTo_last P htop hbody (Nat.zero_add _) hfuel hs
  rwa [nth_zero] at hloop

/-! ## Loops that came to their end -/

/-- **The loop ends by going past `high`**, so that there is a word past it -/
theorem loopTo_below_top {high : BitVec w} {body : BitVec w → σ → Option σ} {fuel : ℕ} {i : BitVec w} {s s' : σ}
    (h : loopTo high body fuel i s = some s') : high.toNat + 1 < 2 ^ w := by
  induction fuel generalizing i s with
  | zero => cases h
  | succ fuel ih =>
    rw [loopTo] at h
    split_ifs at h with hle
    · obtain ⟨s₁, -, hrest⟩ := Option.bind_eq_some_iff.1 h
      exact ih hrest
    · rw [BitVec.le_def, not_le] at hle
      exact lt_of_le_of_lt hle i.isLt

/-- from the `n`-th round on -/
theorem loopTo_preserves_from {low high : BitVec w} {body : BitVec w → σ → Option σ} (P : ℕ → σ → Prop)
    (htop : high.toNat + 1 < 2 ^ w)
    (hbody : ∀ n s s', n < count low high → P n s → body (nth low n) s = some s' → P (n + 1) s') {fuel n : ℕ}
    (hn : n ≤ count low high) {s s' : σ} (hs : P n s) (h : loopTo high body fuel (nth low n) s = some s') :
    P (count low high) s' := by
  induction fuel generalizing n s with
  | zero => cases h
  | succ fuel ih =>
    rw [loopTo, nth_succ] at h
    split_ifs at h with hle
    · obtain ⟨s₁, hround, hrest⟩ := Option.bind_eq_some_iff.1 h
      have hmore : n < count low high := (nth_le_iff htop hn).1 hle
      exact ih hmore (hbody n s s₁ hmore hs hround) hrest
    · obtain rfl := Option.some.inj h
      rw [nth_le_iff htop hn, not_lt] at hle
      rwa [le_antisymm hle hn]

/-- **What the body preserves when it gives a result** holds at the end of a loop that has one. -/
theorem loopTo_preserves {low high : BitVec w} {body : BitVec w → σ → Option σ} (P : ℕ → σ → Prop)
    (hbody : ∀ n s s', n < count low high → P n s → body (nth low n) s = some s' → P (n + 1) s') {fuel : ℕ}
    {s s' : σ} (hs : P 0 s) (h : loopTo high body fuel low s = some s') : P (count low high) s' := by
  have htop := loopTo_below_top h
  rw [← nth_zero low] at h
  exact loopTo_preserves_from P htop hbody (Nat.zero_le _) hs h

/-! ## The words between two words -/

theorem mem_between {low high a : BitVec w} : a ∈ between low high ↔ low ≤ a ∧ a ≤ high := by
  have hhigh := high.isLt
  rw [between, List.mem_map, BitVec.le_def, BitVec.le_def]
  constructor
  · intro h
    obtain ⟨n, hn, rfl⟩ := h
    rw [List.mem_range, lt_count] at hn
    rw [toNat_nth (by omega)]
    omega
  · intro h
    refine ⟨a.toNat - low.toNat, List.mem_range.2 (lt_count.2 (by omega)), ?_⟩
    apply BitVec.eq_of_toNat_eq
    rw [toNat_nth (by omega)]
    omega

theorem between_ascending (low high : BitVec w) : (between low high).Pairwise (· < ·) := by
  have hhigh := high.isLt
  rw [between, List.pairwise_map]
  refine List.pairwise_lt_range.imp_of_mem ?_
  intro m n hm hn hlt
  rw [List.mem_range, lt_count] at hm hn
  rw [BitVec.lt_def, toNat_nth (by omega), toNat_nth (by omega)]
  omega

end NetSec.WordLoop
