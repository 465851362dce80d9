/-
When does the port scan come to an end? spawn_pscan and scan_addr (client/port_scanner.c, lines 34-43 and 90-136).

`spawnPscan` gives a result only when `numAddr` is positive, both loops come to their end, each index is below
`numAddr`, and no NULL is read as the result of a thread. `ScanTotal` says that it gives one.

Three things are in the way. The counter `i` is a word and the loops run while `i <= high`, which every word is when
`high` is the last address; `num_addr` is an int, which cannot hold 2^31 addresses or more; and the joining loop reads
what a thread returned, which is NULL when curl_easy_init failed.

- `spawnPscan_needs`: a scan with a result met none of the three;
- `scan_total_iff`: it is total exactly then;
- `scan_not_total`: one scan for each of the three.
-/
import NetSec.Client.PortScan

namespace NetSec.Client

open NetSec.Memory NetSec.WordLoop

/-- **The scan is total**: the arrays have a positive size, and there is a result after enough rounds of the loops. -/
structure ScanTotal (arg : PscanIn) (returns : Returns) (s : Pscan) : Prop where
  numAddr : 0 < (arg.high - arg.low + 1).toInt
  returns : ∃ rounds, ∀ fuel, rounds < fuel → ∃ out scanned, spawnPscan fuel arg returns s = some (out, scanned)

/-! ## The number of addresses -/

theorem PscanIn.total_le (arg : PscanIn) : arg.total ≤ 2 ^ 32 :=
  calc
    arg.total = arg.high.toNat + 1 - arg.low.toNat := rfl
    _ ≤ arg.high.toNat + 1 := Nat.sub_le ..
    _ ≤ 2 ^ 32 := arg.high.isLt

/-- the number of addresses is an int when `num_addr` is positive: all of them together would make it 0 -/
theorem PscanIn.total_lt {arg : PscanIn} (hpos : 0 < (arg.high - arg.low + 1).toInt) : arg.total < 2 ^ 31 := by
  have htotal := arg.total_le
  have hword := arg.toNat_numAddr
  rw [BitVec.toInt_eq_toNat_cond] at hpos
  split_ifs at hpos <;> omega

theorem PscanIn.not_spans_top {arg : PscanIn} (htop : arg.high.toNat + 1 < 2 ^ 32) : ¬ arg.Spans 0xffffffff := by
  intro hspans
  have hle : (0xffffffff : BitVec 32).toNat ≤ arg.high.toNat := BitVec.le_def.1 ((arg.spans_iff _).1 hspans).2
  have hmax : (0xffffffff : BitVec 32).toNat = 2 ^ 32 - 1 := rfl
  omega

/-! ## Scans with a result -/

/-- a round of the first loop, when it gives anything -/
theorem Started.of_startScan {low srcip : BitVec 32} {n : ℕ} {s s' : Pscan} (h : Started low srcip n s) {numAddr : ℤ}
    (hn : n < 2 ^ 32) (hlt : (n : ℤ) < numAddr) (hs : Client.startScan low srcip numAddr (nth low n) s = some s') :
    Started low srcip (n + 1) s' ∧ s'.cFound = s.cFound := by
  obtain ⟨s₁, hround, hs₁⟩ := h.startScan hn hlt
  obtain rfl := Option.some.inj (hs.symm.trans hround)
  exact hs₁

/-- **The thread that is joined has returned something.** -/
theorem Started.ne_none_of_joinScan {returns : Returns} {low srcip : BitVec 32} {total n : ℕ} {s s' : Pscan}
    (h : Started low srcip total s) {numAddr : ℤ} (hn : n < total) (hlt : (n : ℤ) < numAddr) (htotal : total < 2 ^ 32)
    (hs : Client.joinScan returns low numAddr (nth low n) s = some s') : returns n (argOf low srcip n) ≠ none := by
  intro hnull
  have hentry : entry numAddr (nth low n - low).toNat = some n := entry_nth (by omega) hlt
  have harg : s.started[n]? = some n := by
    rw [h.started]
    exact List.getElem?_range hn
  have hread : Client.joinScan returns low numAddr (nth low n) s = none := by
    simp only [Client.joinScan, hentry, h.threads n hn, harg, h.addrs n hn, hnull, Option.bind_eq_bind,
      Option.bind_some, Option.bind_none]
  rw [hread] at hs
  cases hs

/-- threads that were joined with a result -/
def Returned (returns : Returns) (low srcip : BitVec 32) (n : ℕ) : Prop :=
  ∀ k < n, returns k (argOf low srcip k) ≠ none

theorem Returned.succ {returns : Returns} {low srcip : BitVec 32} {n : ℕ} (h : Returned returns low srcip n)
    (hn : returns n (argOf low srcip n) ≠ none) : Returned returns low srcip (n + 1) := by
  intro k hk
  rcases Nat.lt_succ_iff_lt_or_eq.1 hk with hlt | rfl
  · exact h k hlt
  · exact hn

/-- **The first loop**, when it comes to an end -/
theorem started_of_startLoop {arg : PscanIn} {fuel : ℕ} {s s' : Pscan} (hs : s.started = [])
    (h : loopTo arg.high (startScan arg.low arg.srcip arg.total) fuel arg.low s = some s') :
    Started arg.low arg.srcip arg.total s' ∧ s'.cFound = s.cFound := by
  have hstart : Started arg.low arg.srcip 0 s := ⟨hs, by simp, by simp⟩
  refine loopTo_preserves (fun n t => Started arg.low arg.srcip n t ∧ t.cFound = s.cFound) ?_ ⟨hstart, rfl⟩ h
  intro n t t' hn ht hround
  have htotal := arg.total_le
  obtain ⟨ht', hsame⟩ := ht.1.of_startScan (lt_of_lt_of_le hn htotal) (Int.ofNat_lt.2 hn) hround
  exact ⟨ht', hsame.trans ht.2⟩

/-- **The second loop**, when it comes to an end -/
theorem returned_of_joinLoop {arg : PscanIn} (hfew : arg.total < 2 ^ 31) {fuel : ℕ} {returns : Returns} {s s' : Pscan}
    (hs : Joined returns arg.low arg.srcip arg.total 0 s)
    (h : loopTo arg.high (joinScan returns arg.low arg.total) fuel arg.low s = some s') :
    Returned returns arg.low arg.srcip arg.total := by
  have hpreserves := loopTo_preserves
    (fun n t => Joined returns arg.low arg.srcip arg.total n t ∧ Returned returns arg.low arg.srcip n)
    ?_ ⟨hs, fun k hk => absurd hk (Nat.not_lt_zero k)⟩ h
  · exact hpreserves.2
  · intro n t t' hn ht hround
    have hreturned := ht.1.toStarted.ne_none_of_joinScan hn (Int.ofNat_lt.2 hn) (by omega) hround
    obtain ⟨t₁, hjoin, ht₁⟩ := ht.1.joinScan rfl hn (by omega) hreturned
    obtain rfl := Option.some.inj (hround.symm.trans hjoin)
    exact ⟨ht₁, ht.2.succ hreturned⟩

/-- **What a scan with a result needs.** -/
theorem spawnPscan_needs {fuel : ℕ} {arg : PscanIn} {returns : Returns} {s : Pscan} {r : PscanOut × List ScanAddrIn}
    (h : spawnPscan fuel arg returns s = some r) :
    arg.total < 2 ^ 31 ∧ arg.high.toNat + 1 < 2 ^ 32 ∧ Returned returns arg.low arg.srcip arg.total := by
  rw [spawnPscan_eq] at h
  split_ifs at h with hsize
  have hfew : arg.total < 2 ^ 31 := PscanIn.total_lt (not_le.1 hsize)
  rw [PscanIn.numAddr_eq hfew] at h
  obtain ⟨s₁, hstart, h⟩ := Option.bind_eq_some_iff.1 h
  obtain ⟨s₂, hjoin, -⟩ := Option.bind_eq_some_iff.1 h
  obtain ⟨hstarted, hfound⟩ := started_of_startLoop rfl hstart
  exact ⟨hfew, loopTo_below_top hstart, returned_of_joinLoop hfew (hstarted.joined hfound) hjoin⟩

/-! ## Total scans -/

/-- scan_addr returns NULL exactly when it gets no handle -/
theorem scanAddr_ne_none (curl : Libcurl) (arg : ScanAddrIn) (page : List Chunk) :
    scanAddr curl arg page ≠ none ↔ curl.easyInit = true := by
  rw [scanAddr]
  split_ifs with hinit
  · refine iff_of_true ?_ hinit
    rw [inetNtop_eq, inetNtop_eq]
    dsimp only
    split
    · exact Option.some_ne_none _
    · split_ifs <;> exact Option.some_ne_none _
  · exact iff_of_false (fun h => h rfl) hinit

theorem scanTotal_iff (arg : PscanIn) (returns : Returns) (s : Pscan) :
    ScanTotal arg returns s ↔
      arg.spanned < 2 ^ 31 ∧ ¬ arg.Spans 0xffffffff ∧ Returned returns arg.low arg.srcip arg.spanned := by
  rw [arg.spanned_eq]
  constructor
  · intro h
    obtain ⟨rounds, hscan⟩ := h.returns
    obtain ⟨out, scanned, hresult⟩ := hscan (rounds + 1) (Nat.lt_succ_self rounds)
    obtain ⟨hfew, htop, hreturned⟩ := spawnPscan_needs hresult
    exact ⟨hfew, PscanIn.not_spans_top htop, hreturned⟩
  · intro h
    obtain ⟨hfew, htop, hreturned⟩ := h
    constructor
    · rw [PscanIn.numAddr_eq hfew]
      exact Int.ofNat_lt.2 arg.total_pos
    · refine ⟨arg.total, fun fuel hfuel => ?_⟩
      obtain ⟨s', hscan, -⟩ := spawnPscan_joined hfew (PscanIn.high_lt htop) hfuel returns hreturned s
      exact ⟨_, _, hscan⟩

/-- **The scan is total, exactly.** Whatever the threads return: when there are fewer than 2^31 addresses, the last one
of all is not among them, and no thread returns NULL. With threads that run scan_addr, the last means that each of them
gets its handle. -/
theorem scan_total_iff (arg : PscanIn) (s : Pscan) :
    (∀ returns, ScanTotal arg returns s ↔
      arg.spanned < 2 ^ 31 ∧ ¬ arg.Spans 0xffffffff ∧
        ∀ n < arg.spanned, returns n (argOf arg.low arg.srcip n) ≠ none) ∧
    ∀ curls pages, ScanTotal arg (scanThreads curls pages) s ↔
      arg.spanned < 2 ^ 31 ∧ ¬ arg.Spans 0xffffffff ∧ ∀ n < arg.spanned, (curls n).easyInit = true := by
  refine ⟨fun returns => scanTotal_iff arg returns s, fun curls pages => ?_⟩
  rw [scanTotal_iff]
  refine and_congr_right fun _ => and_congr_right fun _ => ?_
  exact forall₂_congr fun n _ => scanAddr_ne_none (curls n) _ (pages n)

/-- 255.255.255.255 alone -/
def lastAddress : PscanIn := ⟨0xffffffff, 0xffffffff, 0x110b040a⟩

/-- from 0.0.0.0 to 127.255.255.255 -/
def lowerHalf : PscanIn := ⟨0, 0xffffff7f, 0x110b040a⟩

/-- no handle for the second thread -/
def noSecondHandle (n : ℕ) : Libcurl := { aborting with easyInit := n ≠ 1 }

/-- **Three scans that are not total**: one that has the last address, one that is too large for an int, whose arrays
would have -2^31 entries, and one whose second thread gets no handle. -/
theorem scan_not_total :
    ¬ ScanTotal lastAddress (fun n a => some (secondAnswers n a)) noThreads ∧
    ((lowerHalf.high - lowerHalf.low + 1).toInt = -2 ^ 31 ∧
      ¬ ScanTotal lowerHalf (fun n a => some (secondAnswers n a)) noThreads) ∧
    (scanThreads noSecondHandle (fun _ => wholePage) 1 (argOf twoAddresses.low twoAddresses.srcip 1) = none ∧
      ¬ ScanTotal twoAddresses (scanThreads noSecondHandle fun _ => wholePage) noThreads) := by
  refine ⟨?_, ⟨by decide, ?_⟩, rfl, ?_⟩
  · rw [scanTotal_iff]
    exact fun h => h.2.1 (by decide)
  · rw [scanTotal_iff]
    exact fun h => absurd h.1 (by decide)
  · rw [scanTotal_iff]
    exact fun h => h.2.2 1 (by decide) rfl

end NetSec.Client
