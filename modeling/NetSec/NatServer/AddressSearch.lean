/-
Does the search for a free public address come to an end? (NAT/NATServer.c, manipulateMapping, lines 551-573)

Every round of the loop calls `srand((unsigned) time(&timeNow))`, then `rand` once. `rand` here is what rand returns
after srand with a seed: while the clock reads one second, every round draws the same address. `searchAddress` is the
loop for at most so many rounds; `none` means that it still goes on, `some none` would be NULL, which handleRequest
reports as NONE. The time bound of the search was set before the loop.

- `searchAddress_some_iff`: under any clock the loop ends with the first address drawn that no entry in the window
  holds;
- `finds_address_iff`: while the clock reads t, it does what it is to do exactly when the one address of second t is not
  held. It does not when two prefixes ask in one second (`second_prefix_waits`);
- `drawAddress_still`: these are the requests of manipulateMapping during which the clock stands still.
-/
import NetSec.NatServer.Server

namespace NetSec.NatServer

open NetSec.Run NetSec.Text

/-- the address that is drawn when the clock reads `t` -/
def drawnAt (rand : BitVec 32 → ℕ) (t : ℤ) : Text := fluxAddress (rand (BitVec.ofInt 32 t))

/-- the do-while loop, for at most so many rounds; `clock i` is read in round `i` -/
def searchAddress (rand : BitVec 32 → ℕ) (list : List Mapping) (bound : ℤ) : ℕ → (ℕ → ℤ) → Option (Option Text)
  | 0, _ => none
  | rounds + 1, clock =>
    let publicIP := drawnAt rand (clock 0)
    match findElement cmpMaps ⟨bound, none, some publicIP⟩ list with
    | some _ => searchAddress rand list bound rounds fun i => clock (i + 1)
    | none => some (some publicIP)

/-- an entry that the search matches has the address -/
def Held (list : List Mapping) (bound : ℤ) (pub : Text) : Prop := ∃ m ∈ list, m.publicIP = pub ∧ InWindow bound m

instance (list : List Mapping) (bound : ℤ) (pub : Text) : Decidable (Held list bound pub) := by
  unfold Held; infer_instance

/-- 10.4.11.195 to 10.4.11.254 -/
def pool : List Text := (List.range (publicIpRangeEnd - publicIpRangeStart + 1)).map fluxAddress

/-- while the clock reads `t`: the loop finds a free address if there is one, and else ends with NULL -/
structure FindsAddress (rand : BitVec 32 → ℕ) (list : List Mapping) (bound t : ℤ) : Prop where
  free : (∃ pub ∈ pool, ¬ Held list bound pub) → ∃ rounds, ∃ pub ∈ pool, ¬ Held list bound pub ∧
    searchAddress rand list bound rounds (fun _ => t) = some (some pub)
  full : (∀ pub ∈ pool, Held list bound pub) → ∃ rounds, searchAddress rand list bound rounds (fun _ => t) = some none

variable {rand : BitVec 32 → ℕ} {list : List Mapping} {bound t : ℤ}

theorem fluxAddress_mem_pool (r : ℕ) : fluxAddress r ∈ pool := by
  have hlt := Nat.mod_lt r (y := publicIpRangeEnd - publicIpRangeStart + 1) (by decide)
  refine List.mem_map.2 ⟨_, List.mem_range.2 hlt, ?_⟩
  rw [fluxAddress, fluxAddress, Nat.mod_mod]

/-- the search by address comes back empty exactly for a free one -/
theorem findElement_eq_none_iff (pub : Text) :
    findElement cmpMaps ⟨bound, none, some pub⟩ list = none ↔ ¬ Held list bound pub := by
  rw [findElement_eq_find?, List.find?_eq_none]
  simp only [decide_eq_true_eq, cmpMaps_address, Held, not_exists, not_and]

theorem findElement_held {pub : Text} (h : Held list bound pub) :
    ∃ m, findElement cmpMaps ⟨bound, none, some pub⟩ list = some m := by
  rw [← Option.ne_none_iff_exists']
  intro hnone
  exact (findElement_eq_none_iff pub).1 hnone h

/-- **Where the loop ends**: with the first address drawn that is free. -/
theorem searchAddress_some_iff {rounds : ℕ} {clock : ℕ → ℤ} {pub : Option Text} :
    searchAddress rand list bound rounds clock = some pub ↔
      ∃ n < rounds, pub = some (drawnAt rand (clock n)) ∧ ¬ Held list bound (drawnAt rand (clock n)) ∧
        ∀ i < n, Held list bound (drawnAt rand (clock i)) := by
  induction rounds generalizing clock with
  | zero => simp [searchAddress]
  | succ rounds ih =>
    by_cases hheld : Held list bound (drawnAt rand (clock 0))
    · obtain ⟨m, hm⟩ := findElement_held hheld
      simp only [searchAddress, hm, ih]
      refine ⟨?_, ?_⟩
      · rintro ⟨n, hn, hpub, hfree, hbefore⟩
        refine ⟨n + 1, by omega, hpub, hfree, ?_⟩
        intro i hi
        cases i with
        | zero => exact hheld
        | succ i => exact hbefore i (by omega)
      · rintro ⟨n, hn, hpub, hfree, hbefore⟩
        cases n with
        | zero => exact absurd hheld hfree
        | succ n => exact ⟨n, by omega, hpub, hfree, fun i hi => hbefore (i + 1) (by omega)⟩
    · simp only [searchAddress, (findElement_eq_none_iff _).2 hheld, Option.some.injEq]
      refine ⟨?_, ?_⟩
      · rintro rfl
        exact ⟨0, by omega, rfl, hheld, by omega⟩
      · rintro ⟨n, -, rfl, -, hbefore⟩
        cases n with
        | zero => rfl
        | succ n => exact absurd (hbefore 0 (by omega)) hheld

/-- while the clock reads one second, one address is drawn -/
theorem searchAddress_still {rounds : ℕ} {pub : Option Text} :
    searchAddress rand list bound rounds (fun _ => t) = some pub ↔
      0 < rounds ∧ pub = some (drawnAt rand t) ∧ ¬ Held list bound (drawnAt rand t) := by
  rw [searchAddress_some_iff]
  refine ⟨?_, ?_⟩
  · rintro ⟨n, hn, hpub, hfree, -⟩
    exact ⟨by omega, hpub, hfree⟩
  · rintro ⟨hpos, hpub, hfree⟩
    exact ⟨0, hpos, hpub, hfree, by omega⟩

/-- **The search of one second.** Whatever rand is: in every list, for every bound and every second, the loop does what
it is to do if and only if the address drawn in that second is free. -/
theorem finds_address_iff (rand : BitVec 32 → ℕ) (list : List Mapping) (bound t : ℤ) :
    FindsAddress rand list bound t ↔ ¬ Held list bound (drawnAt rand t) := by
  have hdrawn : drawnAt rand t ∈ pool := fluxAddress_mem_pool _
  refine ⟨?_, ?_⟩
  · intro h
    by_cases hfull : ∀ pub ∈ pool, Held list bound pub
    · obtain ⟨rounds, hsearch⟩ := h.full hfull
      cases (searchAddress_still.1 hsearch).2.1
    · obtain ⟨pub, hpub, hfree⟩ := not_forall₂.1 hfull
      obtain ⟨rounds, pub', -, -, hsearch⟩ := h.free ⟨pub, hpub, hfree⟩
      exact (searchAddress_still.1 hsearch).2.2
  · intro hfree
    refine ⟨?_, ?_⟩
    · intro _
      exact ⟨1, _, hdrawn, hfree, searchAddress_still.2 ⟨Nat.one_pos, rfl, hfree⟩⟩
    · intro hfull
      exact absurd (hfull _ hdrawn) hfree

/-! ## In the server -/

/-- the rounds of a request while the clock stands still -/
theorem drawAddress_still {pub : Text} {t' : ℤ} :
    (∃ n, drawAddress list bound t (List.replicate n ⟨0, rand (BitVec.ofInt 32 t)⟩) = some (pub, t')) ↔
      t' = t ∧ ∃ rounds, searchAddress rand list bound rounds (fun _ => t) = some (some pub) := by
  simp only [searchAddress_still, Option.some.injEq]
  refine ⟨?_, ?_⟩
  · rintro ⟨n, hdraw⟩
    induction n with
    | zero => simp [drawAddress] at hdraw
    | succ n ih =>
      simp only [List.replicate_succ, drawAddress, Nat.cast_zero, add_zero] at hdraw
      split at hdraw
      · exact ih hdraw
      · rename_i hnone
        split_ifs at hdraw
        simp only [Option.some.injEq, Prod.mk.injEq] at hdraw
        exact ⟨hdraw.2.symm, 1, Nat.one_pos, hdraw.1.symm, (findElement_eq_none_iff _).1 hnone⟩
  · rintro ⟨rfl, rounds, -, rfl, hfree⟩
    refine ⟨1, ?_⟩
    have hnone := (findElement_eq_none_iff _).2 hfree
    rw [drawnAt] at hnone ⊢
    simp [drawAddress, hnone]

/-- what rand returns after srand(0) -/
def randZero (_ : BitVec 32) : ℕ := 1804289383

/-- the list after a request in second 0 -/
def oneMapping : List Mapping := [⟨0, ispPrefix [] clientA, drawnAt randZero 0⟩]

/-- **The second prefix waits.** In second 0 a first request gets 10.4.11.238. While the clock reads 0, a request of
another prefix draws the same address in every round, although 59 others are free. -/
theorem second_prefix_waits :
    (∃ s, step bootServer (.add clientA ⟨[], 0, 0, [⟨0, randZero 0⟩], 0⟩) = some s ∧ s.mappingList = oneMapping) ∧
    drawnAt randZero 0 = "10.4.11.238".toList ∧
    (∀ rounds, searchAddress randZero oneMapping (0 - expirationTimeSeconds) rounds (fun _ => 0) = none) ∧
    ¬ FindsAddress randZero oneMapping (0 - expirationTimeSeconds) 0 := by
  have hheld : Held oneMapping (0 - expirationTimeSeconds) (drawnAt randZero 0) := by decide
  have hstalls : ∀ rounds,
      searchAddress randZero oneMapping (0 - expirationTimeSeconds) rounds (fun _ => 0) = none := by
    intro rounds
    by_contra hne
    obtain ⟨pub, hpub⟩ := Option.ne_none_iff_exists'.1 hne
    exact (searchAddress_still.1 hpub).2.2 hheld
  have hother : ¬ Held oneMapping (0 - expirationTimeSeconds) (fluxAddress 0) := by decide
  refine ⟨⟨_, rfl, rfl⟩, by decide, hstalls, ?_⟩
  intro h
  obtain ⟨rounds, pub, -, -, hsearch⟩ := h.free ⟨_, fluxAddress_mem_pool 0, hother⟩
  rw [hstalls] at hsearch
  cases hsearch

end NetSec.NatServer
