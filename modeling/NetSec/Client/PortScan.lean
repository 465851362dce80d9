/-
The port scan: spawn_pscan (client/port_scanner.c, lines 90-136).

Each address from the lower end to the upper one gets a thread that runs scan_addr on an entry of `addrs`; the threads
are joined in the same order, and the addresses whose thread returned 0 are put together in `hits`. What a thread
returns is `returns`, by its number and its argument: NULL, or a number. The three arrays have `numAddr` entries: an
index outside, a size that is not positive and a NULL that is read give no result, and so does a loop with no end.

- `startLoop_started`: every address gets a thread of its own, in ascending order;
- `joinLoop_joined`: the hits, put together;
- `scan_reports_open`: for ends that span fewer than 2^31 addresses and do not include the last one, spawn_pscan
  returns, having scanned each address once, with the ascending list of those whose scan returned 0;
- `scan_finds_pages`: with threads that run scan_addr, these are the addresses whose page is verified.
-/
import NetSec.Core.WordLoop
import NetSec.Client.PageCheck

namespace NetSec.Client

open NetSec.Memory NetSec.WordLoop

structure PscanIn where
  start : BitVec 32
  stop : BitVec 32
  srcip : BitVec 32

/-- low and high: in host order, and the right way round -/
def PscanIn.ends (arg : PscanIn) : BitVec 32 × BitVec 32 :=
  let low := swapl arg.start
  let high := swapl arg.stop
  if high < low then (high, low) else (low, high)

structure PscanOut where
  nFound : BitVec 32
  found : List (BitVec 32)

/-- the variables of spawn_pscan; `started` are the entries of addrs that the threads were started on, one after the
other -/
structure Pscan where
  hits : ℕ → BitVec 32
  threads : ℕ → ℕ
  addrs : ℕ → ScanAddrIn
  cFound : ℕ
  started : List ℕ

/-- what the threads return -/
abbrev Returns := ℕ → ScanAddrIn → Option ℤ

/-- an index into an array of that many entries -/
def entry (numAddr : ℤ) (k : ℕ) : Option ℕ := if (k : ℤ) < numAddr then some k else none

/-- one round of the first loop -/
def startScan (low srcip : BitVec 32) (numAddr : ℤ) (i : BitVec 32) (s : Pscan) : Option Pscan :=
  (entry numAddr (i - low).toNat).map fun k =>
    { s with
      addrs := Function.update s.addrs k ⟨swapl i, 80, srcip⟩
      threads := Function.update s.threads k s.started.length
      started := s.started ++ [k] }

/-- one round of the second loop -/
def joinScan (returns : Returns) (low : BitVec 32) (numAddr : ℤ) (i : BitVec 32) (s : Pscan) : Option Pscan := do
  let k ← entry numAddr (i - low).toNat
  let arg ← s.started[s.threads k]?
  let retcode ← returns (s.threads k) (s.addrs arg)
  if retcode = 0 then
    let c ← entry numAddr s.cFound
    some { s with hits := Function.update s.hits c (swapl i), cFound := s.cFound + 1 }
  else some s

/-- the result, and what was scanned; `s` is what the variables held before -/
def spawnPscan (fuel : ℕ) (arg : PscanIn) (returns : Returns) (s : Pscan) : Option (PscanOut × List ScanAddrIn) :=
  let (low, high) := arg.ends
  let numAddr : ℤ := (high - low + 1).toInt
  if numAddr ≤ 0 then none
  else do
    let s := { s with hits := fun _ => 0, cFound := 0, started := [] }
    let s ← loopTo high (startScan low arg.srcip numAddr) fuel low s
    let s ← loopTo high (joinScan returns low numAddr) fuel low s
    some (⟨BitVec.ofNat 32 s.cFound, (List.range s.cFound).map s.hits⟩, s.started.map s.addrs)

/-! ## The first loop -/

/-- the argument for the `n`-th address -/
def argOf (low srcip : BitVec 32) (n : ℕ) : ScanAddrIn := ⟨swapl (nth low n), 80, srcip⟩

/-- so many threads are started -/
structure Started (low srcip : BitVec 32) (n : ℕ) (s : Pscan) : Prop where
  started : s.started = List.range n
  threads : ∀ k < n, s.threads k = k
  addrs : ∀ k < n, s.addrs k = argOf low srcip k

theorem entry_nth {low : BitVec 32} {numAddr : ℤ} {n : ℕ} (hn : n < 2 ^ 32) (h : (n : ℤ) < numAddr) :
    entry numAddr (nth low n - low).toNat = some n := by
  rw [nth_sub, BitVec.toNat_ofNat, Nat.mod_eq_of_lt hn]
  exact if_pos h

theorem Started.startScan {low srcip : BitVec 32} {n : ℕ} {s : Pscan} (h : Started low srcip n s) {numAddr : ℤ}
    (hn : n < 2 ^ 32) (hlt : (n : ℤ) < numAddr) :
    ∃ s', startScan low srcip numAddr (nth low n) s = some s' ∧ Started low srcip (n + 1) s' ∧
      s'.cFound = s.cFound := by
  have hround : Client.startScan low srcip numAddr (nth low n) s =
      some { s with
        addrs := Function.update s.addrs n (argOf low srcip n)
        threads := Function.update s.threads n s.started.length
        started := s.started ++ [n] } := by
    rw [Client.startScan, entry_nth hn hlt, Option.map_some]
    rfl
  refine ⟨_, hround, ⟨?_, ?_, ?_⟩, rfl⟩
  · rw [h.started, List.range_succ]
  · intro k hk
    by_cases hkn : k = n
    · subst hkn
      rw [h.started, List.length_range]
      exact Function.update_self ..
    · exact (Function.update_of_ne hkn ..).trans (h.threads k (by omega))
  · intro k hk
    by_cases hkn : k = n
    · subst hkn
      exact Function.update_self ..
    · exact (Function.update_of_ne hkn ..).trans (h.addrs k (by omega))

/-! ## The second loop -/

/-- whether the scan of the `n`-th address is a hit -/
def Hit (returns : Returns) (low srcip : BitVec 32) (n : ℕ) : Prop := returns n (argOf low srcip n) = some 0

instance (returns : Returns) (low srcip : BitVec 32) : DecidablePred (Hit returns low srcip) := fun _ =>
  inferInstanceAs (Decidable (_ = _))

/-- the hits among the first `n` -/
def hitsAmong (returns : Returns) (low srcip : BitVec 32) (n : ℕ) : List ℕ :=
  (List.range n).filter (Hit returns low srcip ·)

/-- of `total` threads, the first `n` are joined -/
structure Joined (returns : Returns) (low srcip : BitVec 32) (total n : ℕ) (s : Pscan) : Prop
    extends Started low srcip total s where
  cFound : s.cFound = (hitsAmong returns low srcip n).length
  hits : (List.range s.cFound).map s.hits = (hitsAmong returns low srcip n).map fun k => swapl (nth low k)

theorem hitsAmong_succ (returns : Returns) (low srcip : BitVec 32) (n : ℕ) :
    hitsAmong returns low srcip (n + 1) =
      hitsAmong returns low srcip n ++ if Hit returns low srcip n then [n] else [] := by
  rw [hitsAmong, List.range_succ, List.filter_append, hitsAmong]
  congr 1
  split_ifs with h <;> simp [h]

theorem length_hitsAmong_le (returns : Returns) (low srcip : BitVec 32) (n : ℕ) :
    (hitsAmong returns low srcip n).length ≤ n :=
  (List.length_filter_le _ _).trans_eq (List.length_range)

/-- an entry behind those that are there -/
theorem map_update_range {α : Type} (f : ℕ → α) (n : ℕ) (v : α) :
    (List.range (n + 1)).map (Function.update f n v) = (List.range n).map f ++ [v] := by
  rw [List.range_succ, List.map_append, List.map_singleton, Function.update_self]
  congr 1
  apply List.map_congr_left
  intro k hk
  exact Function.update_of_ne (List.mem_range.1 hk).ne ..

/-- none is joined yet -/
theorem Started.joined {returns : Returns} {low srcip : BitVec 32} {total : ℕ} {s : Pscan}
    (h : Started low srcip total s) (hfound : s.cFound = 0) : Joined returns low srcip total 0 s := by
  refine ⟨h, hfound, ?_⟩
  rw [hfound]
  rfl

theorem Joined.joinScan {returns : Returns} {low srcip : BitVec 32} {total n : ℕ} {s : Pscan}
    (h : Joined returns low srcip total n s) {numAddr : ℤ} (hnum : numAddr = total) (hn : n < total)
    (htotal : total < 2 ^ 32) (hreturns : returns n (argOf low srcip n) ≠ none) :
    ∃ s', joinScan returns low numAddr (nth low n) s = some s' ∧ Joined returns low srcip total (n + 1) s' := by
  obtain ⟨retcode, hretcode⟩ := Option.ne_none_iff_exists'.1 hreturns
  have hentry : entry numAddr (nth low n - low).toNat = some n := entry_nth (by omega) (by omega)
  have harg : s.started[n]? = some n := by
    rw [h.started]
    exact List.getElem?_range hn
  have hlength := length_hitsAmong_le returns low srcip n
  have hslot : entry numAddr s.cFound = some s.cFound := if_pos (by rw [h.cFound]; omega)
  have hjoin : Client.joinScan returns low numAddr (nth low n) s =
      if retcode = 0 then
        some { s with hits := Function.update s.hits s.cFound (swapl (nth low n)), cFound := s.cFound + 1 }
      else some s := by
    simp only [Client.joinScan, hentry, h.threads n hn, harg, h.addrs n hn, hretcode, hslot, Option.bind_eq_bind,
      Option.bind_some]
  rw [hjoin]
  split_ifs with h0
  · have hhit : Hit returns low srcip n := by rw [Hit, hretcode, h0]
    refine ⟨_, rfl, ⟨h.started, h.threads, h.addrs⟩, ?_, ?_⟩
    · rw [hitsAmong_succ, if_pos hhit, List.length_append, List.length_singleton, h.cFound]
    · rw [hitsAmong_succ, if_pos hhit, List.map_append, ← h.hits]
      exact map_update_range s.hits s.cFound _
  · have hmiss : ¬ Hit returns low srcip n := by
      rw [Hit, hretcode]
      exact fun heq => h0 (Option.some.inj heq)
    refine ⟨s, rfl, h.toStarted, ?_, ?_⟩
    · rw [hitsAmong_succ, if_neg hmiss, List.append_nil, h.cFound]
    · rw [hitsAmong_succ, if_neg hmiss, List.append_nil, h.hits]

/-! ## The whole scan -/

def PscanIn.low (arg : PscanIn) : BitVec 32 := arg.ends.1

def PscanIn.high (arg : PscanIn) : BitVec 32 := arg.ends.2

theorem PscanIn.low_le_high (arg : PscanIn) : arg.low ≤ arg.high := by
  unfold PscanIn.low PscanIn.high PscanIn.ends
  dsimp only
  split_ifs with h
  · exact BitVec.le_of_lt h
  · exact BitVec.not_lt.1 h

/-- how many addresses there are -/
def PscanIn.total (arg : PscanIn) : ℕ := count arg.low arg.high

theorem PscanIn.total_pos (arg : PscanIn) : 0 < arg.total := lt_count.2 (BitVec.le_def.1 arg.low_le_high)

/-- `high - low + 1` in words -/
theorem PscanIn.toNat_numAddr (arg : PscanIn) : (arg.high - arg.low + 1).toNat = arg.total % 2 ^ 32 := by
  have hle : arg.low.toNat ≤ arg.high.toNat := BitVec.le_def.1 arg.low_le_high
  calc
    (arg.high - arg.low + 1).toNat = (arg.high.toNat - arg.low.toNat + 1) % 2 ^ 32 := by
      rw [BitVec.toNat_add, BitVec.toNat_sub_of_le arg.low_le_high]
      rfl
    _ = arg.total % 2 ^ 32 := by
      unfold PscanIn.total count
      congr 1
      omega

/-- `num_addr` is their number as long as that is an int -/
theorem PscanIn.numAddr_eq {arg : PscanIn} (hfew : arg.total < 2 ^ 31) :
    (arg.high - arg.low + 1).toInt = arg.total := by
  have hnat : (arg.high - arg.low + 1).toNat = arg.total := by
    rw [arg.toNat_numAddr]
    exact Nat.mod_eq_of_lt (by omega)
  rw [BitVec.toInt_eq_toNat_of_lt (by omega), hnat]

/-- **The threads are started.** -/
theorem startLoop_started {arg : PscanIn} (hfew : arg.total < 2 ^ 31) (htop : arg.high.toNat + 1 < 2 ^ 32) {fuel : ℕ}
    (hfuel : arg.total < fuel) (s : Pscan) (hs : s.started = []) :
    ∃ s', loopTo arg.high (startScan arg.low arg.srcip arg.total) fuel arg.low s = some s' ∧
      Started arg.low arg.srcip arg.total s' ∧ s'.cFound = s.cFound := by
  have hstart : Started arg.low arg.srcip 0 s := ⟨hs, by simp, by simp⟩
  have hround : ∀ n s₁, n < arg.total → Started arg.low arg.srcip n s₁ ∧ s₁.cFound = s.cFound →
      ∃ s₂, startScan arg.low arg.srcip arg.total (nth arg.low n) s₁ = some s₂ ∧
        Started arg.low arg.srcip (n + 1) s₂ ∧ s₂.cFound = s.cFound := by
    intro n s₁ hn h
    obtain ⟨s₂, hround, hs₂, hsame⟩ := h.1.startScan (by omega) (Int.ofNat_lt.2 hn)
    exact ⟨s₂, hround, hs₂, hsame.trans h.2⟩
  exact loopTo_runs (fun n s' => Started arg.low arg.srcip n s' ∧ s'.cFound = s.cFound) htop hround hfuel
    ⟨hstart, rfl⟩

/-- **The threads are joined.** -/
theorem joinLoop_joined {arg : PscanIn} (hfew : arg.total < 2 ^ 31) (htop : arg.high.toNat + 1 < 2 ^ 32) {fuel : ℕ}
    (hfuel : arg.total < fuel) (returns : Returns)
    (hreturns : ∀ n < arg.total, returns n (argOf arg.low arg.srcip n) ≠ none) {s : Pscan}
    (hs : Started arg.low arg.srcip arg.total s) (hfound : s.cFound = 0) :
    ∃ s', loopTo arg.high (joinScan returns arg.low arg.total) fuel arg.low s = some s' ∧
      Joined returns arg.low arg.srcip arg.total arg.total s' := by
  have hround : ∀ n s₁, n < arg.total → Joined returns arg.low arg.srcip arg.total n s₁ →
      ∃ s₂, joinScan returns arg.low arg.total (nth arg.low n) s₁ = some s₂ ∧
        Joined returns arg.low arg.srcip arg.total (n + 1) s₂ := by
    intro n s₁ hn hs₁
    exact hs₁.joinScan rfl hn (by omega) (hreturns n hn)
  exact loopTo_runs (Joined returns arg.low arg.srcip arg.total) htop hround hfuel (hs.joined hfound)

/-! ## What is reported -/

/-- the addresses between the two ends, in host order and whichever end is the lower one -/
def PscanIn.Spans (arg : PscanIn) (a : BitVec 32) : Prop :=
  (swapl arg.start ≤ a ∧ a ≤ swapl arg.stop) ∨ (swapl arg.stop ≤ a ∧ a ≤ swapl arg.start)

instance (arg : PscanIn) (a : BitVec 32) : Decidable (arg.Spans a) := inferInstanceAs (Decidable (_ ∨ _))

/-- their number -/
def PscanIn.spanned (arg : PscanIn) : ℕ := ((swapl arg.start).toNat - (swapl arg.stop).toNat : ℤ).natAbs + 1

/-- what the scan is for; `values` are the results of the threads -/
structure ReportsOpen (arg : PscanIn) (values : ℕ → ScanAddrIn → ℤ) (out : PscanOut) (scanned : List ScanAddrIn) :
    Prop where
  once : ∀ a, (scanned.map ScanAddrIn.toScan).count (swapl a) = if arg.Spans a then 1 else 0
  mem_found : ∀ a, swapl a ∈ out.found ↔ ∃ n x, scanned[n]? = some x ∧ x.toScan = swapl a ∧ values n x = 0
  ascending : (out.found.map swapl).Pairwise (· < ·)
  nFound : out.nFound.toNat = out.found.length

theorem PscanIn.spans_iff (arg : PscanIn) (a : BitVec 32) : arg.Spans a ↔ arg.low ≤ a ∧ a ≤ arg.high := by
  unfold PscanIn.Spans PscanIn.low PscanIn.high PscanIn.ends
  dsimp only
  split_ifs with h
  all_goals simp only [BitVec.le_def, BitVec.lt_def] at h ⊢; omega

theorem PscanIn.spanned_eq (arg : PscanIn) : arg.spanned = arg.total := by
  unfold PscanIn.spanned PscanIn.total count PscanIn.low PscanIn.high PscanIn.ends
  dsimp only
  split_ifs with h
  all_goals simp only [BitVec.lt_def] at h ⊢; omega

/-- the largest word is not among them -/
theorem PscanIn.high_lt {arg : PscanIn} (htop : ¬ arg.Spans 0xffffffff) : arg.high.toNat + 1 < 2 ^ 32 := by
  have hhigh := arg.high.isLt
  have hle : arg.low.toNat ≤ arg.high.toNat := BitVec.le_def.1 arg.low_le_high
  have hmax : (0xffffffff : BitVec 32).toNat = 2 ^ 32 - 1 := rfl
  rw [arg.spans_iff, BitVec.le_def, BitVec.le_def, hmax] at htop
  omega

/-- the hits after the second loop are what should be reported -/
theorem Joined.reportsOpen {arg : PscanIn} (hfew : arg.total < 2 ^ 31) {values : ℕ → ScanAddrIn → ℤ} {s : Pscan}
    (h : Joined (fun n a => some (values n a)) arg.low arg.srcip arg.total arg.total s) :
    ReportsOpen arg values ⟨BitVec.ofNat 32 s.cFound, (List.range s.cFound).map s.hits⟩ (s.started.map s.addrs) := by
  set returns : Returns := fun n a => some (values n a)
  have hscanned : s.started.map s.addrs = (List.range arg.total).map (argOf arg.low arg.srcip) := by
    rw [h.started]
    exact List.map_congr_left fun k hk => h.addrs k (List.mem_range.1 hk)
  have htoScan : ((List.range arg.total).map (argOf arg.low arg.srcip)).map ScanAddrIn.toScan =
      (between arg.low arg.high).map swapl := by
    rw [List.map_map, between, List.map_map]
    rfl
  have hascending : ((hitsAmong returns arg.low arg.srcip arg.total).map (nth arg.low)).Pairwise (· < ·) :=
    (between_ascending arg.low arg.high).sublist (List.filter_sublist.map _)
  have hlength := length_hitsAmong_le returns arg.low arg.srcip arg.total
  constructor
  · intro a
    rw [hscanned, htoScan, List.count_map_of_injective _ _ swapl_injective]
    have hnodup : (between arg.low arg.high).Nodup := (between_ascending arg.low arg.high).imp BitVec.ne_of_lt
    rw [hnodup.count]
    simp only [mem_between, arg.spans_iff]
  · intro a
    rw [h.hits, hscanned]
    constructor
    · intro hmem
      obtain ⟨n, hn, hswap⟩ := List.mem_map.1 hmem
      obtain ⟨hrange, hhit⟩ := List.mem_filter.1 hn
      refine ⟨n, argOf arg.low arg.srcip n, ?_, hswap, Option.some.inj (of_decide_eq_true hhit)⟩
      rw [List.getElem?_map, List.getElem?_range (List.mem_range.1 hrange)]
      rfl
    · intro hopen
      obtain ⟨n, x, hx, hscan, hzero⟩ := hopen
      rw [List.getElem?_map, Option.map_eq_some_iff] at hx
      obtain ⟨k, hk, rfl⟩ := hx
      obtain ⟨hlt, rfl⟩ := List.getElem?_eq_some_iff.1 hk
      rw [List.getElem_range] at hscan hzero
      rw [List.length_range] at hlt
      refine List.mem_map.2 ⟨n, List.mem_filter.2 ⟨List.mem_range.2 hlt, ?_⟩, hscan⟩
      exact decide_eq_true (congrArg some hzero)
  · rw [h.hits, List.map_map]
    have hback : swapl ∘ (fun k => swapl (nth arg.low k)) = nth arg.low := funext fun k => swapl_swapl _
    rw [hback]
    exact hascending
  · rw [List.length_map, List.length_range, BitVec.toNat_ofNat]
    exact Nat.mod_eq_of_lt (by rw [h.cFound]; omega)

/-- the whole of it, from the lower end to the upper one -/
theorem spawnPscan_eq (fuel : ℕ) (arg : PscanIn) (returns : Returns) (s : Pscan) :
    spawnPscan fuel arg returns s =
      if (arg.high - arg.low + 1).toInt ≤ 0 then none
      else
        (loopTo arg.high (startScan arg.low arg.srcip (arg.high - arg.low + 1).toInt) fuel arg.low
          { s with hits := fun _ => 0, cFound := 0, started := [] }).bind fun s₁ =>
        (loopTo arg.high (joinScan returns arg.low (arg.high - arg.low + 1).toInt) fuel arg.low s₁).bind fun s₂ =>
        some (⟨BitVec.ofNat 32 s₂.cFound, (List.range s₂.cFound).map s₂.hits⟩, s₂.started.map s₂.addrs) := rfl

/-- **spawn_pscan returns**, with enough rounds, when no thread returns NULL -/
theorem spawnPscan_joined {arg : PscanIn} (hfew : arg.total < 2 ^ 31) (htop : arg.high.toNat + 1 < 2 ^ 32) {fuel : ℕ}
    (hfuel : arg.total < fuel) (returns : Returns)
    (hreturns : ∀ n < arg.total, returns n (argOf arg.low arg.srcip n) ≠ none) (s : Pscan) :
    ∃ s', spawnPscan fuel arg returns s =
        some (⟨BitVec.ofNat 32 s'.cFound, (List.range s'.cFound).map s'.hits⟩, s'.started.map s'.addrs) ∧
      Joined returns arg.low arg.srcip arg.total arg.total s' := by
  have hnum := PscanIn.numAddr_eq hfew
  have hpos : ¬ (arg.total : ℤ) ≤ 0 := by
    have htotal := arg.total_pos
    omega
  obtain ⟨s₁, hstart, hstarted, hfound⟩ :=
    startLoop_started hfew htop hfuel { s with hits := fun _ => 0, cFound := 0, started := [] } rfl
  obtain ⟨s₂, hjoin, hjoined⟩ := joinLoop_joined hfew htop hfuel returns hreturns hstarted hfound
  refine ⟨s₂, ?_, hjoined⟩
  rw [spawnPscan_eq, hnum, if_neg hpos, hstart, Option.bind_some, hjoin, Option.bind_some]

/-- **The open addresses are reported.** For ends in either order that span fewer than 2^31 addresses without the last
one, and whatever the threads return: spawn_pscan returns, each address has been scanned once, and what is found is the
ascending list of those whose scan returned 0, with its length. -/
theorem scan_reports_open (arg : PscanIn) (hfew : arg.spanned < 2 ^ 31) (htop : ¬ arg.Spans 0xffffffff)
    (values : ℕ → ScanAddrIn → ℤ) (s : Pscan) :
    ∃ rounds, ∀ fuel, rounds < fuel → ∃ out scanned,
      spawnPscan fuel arg (fun n a => some (values n a)) s = some (out, scanned) ∧
        ReportsOpen arg values out scanned := by
  rw [arg.spanned_eq] at hfew
  refine ⟨arg.total, fun fuel hfuel => ?_⟩
  obtain ⟨s', hscan, hjoined⟩ :=
    spawnPscan_joined hfew (PscanIn.high_lt htop) hfuel (fun n a => some (values n a)) (by simp) s
  exact ⟨_, _, hscan, hjoined.reportsOpen hfew⟩

/-- from 10.4.11.3 down to 10.4.11.2 -/
def twoAddresses : PscanIn := ⟨0x030b040a, 0x020b040a, 0x110b040a⟩

def noThreads : Pscan := ⟨fun _ => 0, fun _ => 0, fun _ => ⟨0, 0, 0⟩, 0, []⟩

/-- only the second one answers -/
def secondAnswers (n : ℕ) (_ : ScanAddrIn) : ℤ := if n = 1 then 0 else 1

theorem two_addresses_reported :
    ∃ rounds, ∀ fuel, rounds < fuel → ∃ out scanned,
      spawnPscan fuel twoAddresses (fun n a => some (secondAnswers n a)) noThreads = some (out, scanned) ∧
        ReportsOpen twoAddresses secondAnswers out scanned :=
  scan_reports_open twoAddresses (by decide) (by decide) secondAnswers noThreads

/-- for instance with 3 rounds of each loop -/
example : (spawnPscan 3 twoAddresses (fun n a => some (secondAnswers n a)) noThreads).map (fun r => r.1.found) =
    some [0x030b040a] := by decide

/-! ## Threads that run scan_addr -/

/-- what happens in the `n`-th thread: its libcurl, and the page that the address gives -/
def scanThreads (curls : ℕ → Libcurl) (pages : ℕ → List Chunk) : Returns := fun n arg =>
  scanAddr (curls n) arg (pages n)

/-- **The pages are found**: with a libcurl that delivers, the addresses that are reported are those every piece of
whose page shows the text. -/
theorem scan_finds_pages {arg : PscanIn} (hfew : arg.spanned < 2 ^ 31) (htop : ¬ arg.Spans 0xffffffff)
    {curls : ℕ → Libcurl} (hcurls : ∀ n, (curls n).Delivers) (pages : ℕ → List Chunk) (s : Pscan) {fuel : ℕ}
    (hfuel : arg.spanned < fuel) :
    ∃ out scanned, spawnPscan fuel arg (scanThreads curls pages) s = some (out, scanned) ∧
      ∀ a, swapl a ∈ out.found ↔ ∃ n x, scanned[n]? = some x ∧ x.toScan = swapl a ∧
        ∀ c ∈ pages n, Text.strstr c.text natdaemon := by
  rw [arg.spanned_eq] at hfew hfuel
  have hreturns : ∀ n a, ∃ value, scanThreads curls pages n a = some value := fun n a =>
    scanAddr_returns (hcurls n) a (pages n)
  choose values hvalues using hreturns
  have hthreads : scanThreads curls pages = fun n a => some (values n a) := by
    funext n a
    exact hvalues n a
  obtain ⟨s', hscan, hjoined⟩ := spawnPscan_joined hfew (PscanIn.high_lt htop) hfuel (scanThreads curls pages)
    (by simp [hthreads]) s
  rw [hthreads] at hjoined
  refine ⟨_, _, hscan, fun a => ?_⟩
  rw [(hjoined.reportsOpen hfew).mem_found]
  have hzero : ∀ n x, values n x = 0 ↔ ∀ c ∈ pages n, Text.strstr c.text natdaemon := by
    intro n x
    rw [← scanAddr_iff (hcurls n) x, ← Option.some.injEq, ← hvalues]
    rfl
  simp only [hzero]

end NetSec.Client
