/-
The statistics of a client: spawn_client (client/nice_client.c, lines 44-80).

One get_rtt after the other, each started on an rtt of 0; what happens in the n-th is `trials n`, with a libcurl of its
own, so that any sequence of outcomes can occur (`outcomes_occur`). The counters are unsigned words of 32 bits; the loop
counter is an int that is compared as an unsigned number, and wraps here as the machine has it. A division by zero gives
no result.

`Exact` says that the statistics are what they are called, `Tallied` what the loop has after some outcomes: the sum is
kept modulo 2^32, the rest as it is.

- `getRtt_cases`: a failed trial leaves the rtt as it was;
- `trialLoop_tallied`, `spawnClient_eq`: the loop, and the report;
- `statistics_exact_iff`: the report is exact just when the sum of the successful rtts is below 2^32.
-/
import Mathlib.Data.List.Fold
import Mathlib.Data.List.MinMax
import Mathlib.Data.List.ReduceOption
import NetSec.Client.PageCheck

namespace NetSec.Client

/-! ## spawn_client -/

structure ClientIn where
  srcip : BitVec 32
  nport : BitVec 16
  numTrials : BitVec 32

structure ClientOut where
  retcode : ℤ
  avgRtt : BitVec 32
  errs : BitVec 32
  maxRtt : BitVec 32

/-- what a call of get_rtt meets -/
structure Trial where
  curl : Libcurl
  nAddr : BitVec 32
  page : List Chunk
  start : Timespec
  stop : Timespec

def Trial.getRtt (t : Trial) (handle : Handle) (rtt : BitVec 32) : ℤ × BitVec 32 :=
  Client.getRtt t.curl handle t.nAddr t.page t.start t.stop rtt

/-- the variables of the loop -/
structure Tally where
  i : BitVec 32
  rttSum : BitVec 32
  maxRtt : BitVec 32
  errs : BitVec 32

def oneTrial (handle : Handle) (trials : ℕ → Trial) (t : Tally) : Tally :=
  let (err, rtt) := (trials t.i.toNat).getRtt handle 0
  { i := t.i + 1
    rttSum := t.rttSum + rtt
    maxRtt := if rtt > t.maxRtt then rtt else t.maxRtt
    errs := if err ≠ 0 then t.errs + 1 else t.errs }

theorem toNat_next {i n : BitVec 32} (h : i < n) : (i + 1).toNat = i.toNat + 1 := by
  have hlt : i.toNat < n.toNat := BitVec.lt_def.1 h
  have hn : n.toNat < 2 ^ 32 := n.isLt
  rw [BitVec.toNat_add]
  exact Nat.mod_eq_of_lt (by change i.toNat + 1 < 2 ^ 32; omega)

def trialLoop (handle : Handle) (trials : ℕ → Trial) (numTrials : BitVec 32) (t : Tally) : Tally :=
  if t.i < numTrials then trialLoop handle trials numTrials (oneTrial handle trials t) else t
termination_by numTrials.toNat - t.i.toNat
decreasing_by
  have hlt : t.i.toNat < numTrials.toNat := BitVec.lt_def.1 (by assumption)
  have hnext : (oneTrial handle trials t).i.toNat = t.i.toNat + 1 := toNat_next (by assumption)
  omega

/-- on the x86, dividing by zero ends the program -/
def divide (a b : BitVec 32) : Option (BitVec 32) := if b = 0 then none else some (a / b)

/-- `out` is what the allocated block holds -/
def spawnClient (curl : Libcurl) (arg : ClientIn) (trials : ℕ → Trial) (out : ClientOut) : Option ClientOut :=
  match setupCurl curl arg.nport arg.srcip with
  | none => some { out with retcode := -1, errs := arg.numTrials, avgRtt := 0 }
  | some handle =>
    let t := trialLoop handle trials arg.numTrials ⟨0, 0, 0, 0⟩
    let out := { out with retcode := 0, errs := t.errs, maxRtt := t.maxRtt }
    if t.errs = arg.numTrials then some { out with avgRtt := 0 }
    else (divide t.rttSum (arg.numTrials - t.errs)).map fun avg => { out with avgRtt := avg }

/-! ## Outcomes -/

/-- failure, or the rtt of a success -/
abbrev Outcome := Option (BitVec 32)

def Trial.outcome (t : Trial) (handle : Handle) : Outcome :=
  if (t.getRtt handle 0).1 = 0 then some (t.getRtt handle 0).2 else none

/-- the first `n` -/
def outcomes (handle : Handle) (trials : ℕ → Trial) (n : ℕ) : List Outcome :=
  (List.range n).map fun k => (trials k).outcome handle

def failures (os : List Outcome) : ℕ := os.countP Option.isNone

def rtts (os : List Outcome) : List ℕ := os.reduceOption.map BitVec.toNat

def total (os : List Outcome) : ℕ := (rtts os).sum

def largest (os : List Outcome) : ℕ := (rtts os).foldl max 0

/-- the statistics of these outcomes -/
structure Exact (os : List Outcome) (out : ClientOut) : Prop where
  errs : out.errs.toNat = failures os
  maxRtt : out.maxRtt.toNat = largest os
  avgRtt : out.avgRtt.toNat = total os / (rtts os).length
  avg_le : out.avgRtt ≤ out.maxRtt

/-- **A failed trial leaves the rtt as it was**, and a successful one writes its round trip. -/
theorem getRtt_cases (curl : Libcurl) (handle : Handle) (nAddr : BitVec 32) (page : List Chunk)
    (start stop : Timespec) (rtt : BitVec 32) :
    getRtt curl handle nAddr page start stop rtt = (-1, rtt) ∨
      getRtt curl handle nAddr page start stop rtt = (0, roundTrip start stop) := by
  unfold getRtt
  split_ifs with hAddr
  · exact Or.inl rfl
  · cases hopts : curl.setopts [.url (inetNtoa nAddr)] handle with
    | none => exact Or.inl rfl
    | some handle' =>
      dsimp only
      split_ifs with hperform
      · exact Or.inr rfl
      · exact Or.inl rfl

/-- what a trial gives back, by its outcome -/
theorem Trial.getRtt_eq (t : Trial) (handle : Handle) :
    ((t.getRtt handle 0).1 ≠ 0 ↔ (t.outcome handle).isNone) ∧ (t.getRtt handle 0).2 = (t.outcome handle).getD 0 := by
  have hcases := getRtt_cases t.curl handle t.nAddr t.page t.start t.stop 0
  unfold Trial.outcome Trial.getRtt
  rcases hcases with h | h
  · rw [h]
    exact ⟨iff_of_true (by decide) rfl, rfl⟩
  · rw [h]
    exact ⟨iff_of_false (absurd rfl) Bool.false_ne_true, rfl⟩

/-- a round trip of that many microseconds -/
def lasting (rtt : BitVec 32) : Timespec := ⟨rtt.toNat / 1000000, rtt.toNat % 1000000 * 1000⟩

theorem roundTrip_lasting (rtt : BitVec 32) : roundTrip ⟨0, 0⟩ (lasting rtt) = rtt := by
  have hnat : (1000000 * ((rtt.toNat : ℤ) / 1000000 - 0) + ((rtt.toNat : ℤ) % 1000000 * 1000 - 0).tdiv 1000) =
      rtt.toNat := by
    rw [sub_zero, sub_zero, Int.mul_tdiv_cancel _ (by decide)]
    omega
  calc
    roundTrip ⟨0, 0⟩ (lasting rtt) = BitVec.ofInt 32 rtt.toNat := by rw [roundTrip, lasting, hnat]
    _ = rtt := by rw [BitVec.ofInt_natCast, BitVec.ofNat_toNat, BitVec.setWidth_eq]

/-- a trial whose name is not resolved, or whose page comes in one piece -/
def trialOf : Outcome → Trial
  | none => ⟨aborting, -1, [], ⟨0, 0⟩, ⟨0, 0⟩⟩
  | some rtt => ⟨aborting, 0, wholePage, ⟨0, 0⟩, lasting rtt⟩

theorem outcome_trialOf {curl : Libcurl} {nport : BitVec 16} {srcip : BitVec 32} {handle : Handle}
    (h : setupCurl curl nport srcip = some handle) (o : Outcome) : (trialOf o).outcome handle = o := by
  cases o with
  | none => rfl
  | some rtt =>
    have hhandle : setupCurl aborting nport srcip = some handle := by
      rw [setupCurl, if_pos aborting_delivers.easyInit, aborting_delivers.setopts, eq_of_setupCurl h]
    have hpage : ∀ c ∈ wholePage, Text.strstr c.text natdaemon := by decide
    have hok := (getRtt_iff aborting_delivers hhandle (by decide : (0 : BitVec 32) ≠ -1) wholePage ⟨0, 0⟩ (lasting rtt)
      0).2 hpage
    unfold Trial.outcome Trial.getRtt
    rcases getRtt_cases aborting handle 0 wholePage ⟨0, 0⟩ (lasting rtt) 0 with h | h
    · rw [h] at hok
      cases hok
    · simp only [trialOf, h, if_true, roundTrip_lasting]

/-- **Every sequence of outcomes occurs.** -/
theorem outcomes_occur {curl : Libcurl} {nport : BitVec 16} {srcip : BitVec 32} {handle : Handle}
    (h : setupCurl curl nport srcip = some handle) (os : ℕ → Outcome) :
    ∃ trials, ∀ n, outcomes handle trials n = (List.range n).map os := by
  refine ⟨fun k => trialOf (os k), fun n => ?_⟩
  unfold outcomes
  congr 1
  funext k
  exact outcome_trialOf h (os k)

/-! ## The loop -/

/-- what the loop has after these outcomes -/
structure Tallied (os : List Outcome) (t : Tally) : Prop where
  i : t.i.toNat = os.length
  rttSum : t.rttSum.toNat = total os % 2 ^ 32
  maxRtt : t.maxRtt.toNat = largest os
  errs : t.errs.toNat = failures os

theorem rtts_snoc (os : List Outcome) (o : Outcome) : rtts (os ++ [o]) = rtts os ++ (o.map BitVec.toNat).toList := by
  rw [rtts, List.reduceOption_append, List.map_append]
  cases o <;> rfl

theorem total_snoc (os : List Outcome) (o : Outcome) : total (os ++ [o]) = total os + (o.getD 0).toNat := by
  rw [total, rtts_snoc, List.sum_append, total]
  cases o <;> simp

theorem largest_snoc (os : List Outcome) (o : Outcome) : largest (os ++ [o]) = max (largest os) (o.getD 0).toNat := by
  rw [largest, rtts_snoc, List.foldl_append, largest]
  cases o <;> simp

theorem failures_snoc (os : List Outcome) (o : Outcome) :
    failures (os ++ [o]) = failures os + if o.isNone then 1 else 0 := by
  rw [failures, List.countP_append, failures]
  cases o <;> rfl

theorem failures_le (os : List Outcome) : failures os ≤ os.length := List.countP_le_length

/-- **One trial.** -/
theorem Tallied.oneTrial {os : List Outcome} {t : Tally} (h : Tallied os t) (handle : Handle) (trials : ℕ → Trial)
    {n : BitVec 32} (hn : t.i < n) :
    Tallied (os ++ [(trials os.length).outcome handle]) (oneTrial handle trials t) := by
  obtain ⟨herr, hrtt⟩ := (trials os.length).getRtt_eq handle
  set o := (trials os.length).outcome handle
  have hnext := toNat_next hn
  have hlt : os.length < 2 ^ 32 := h.i ▸ t.i.isLt
  constructor
  · rw [List.length_append, List.length_singleton, ← h.i]
    exact hnext
  · change (t.rttSum + ((trials t.i.toNat).getRtt handle 0).2).toNat = _
    rw [h.i, hrtt, total_snoc, BitVec.toNat_add, h.rttSum, Nat.mod_add_mod]
  · change (if ((trials t.i.toNat).getRtt handle 0).2 > t.maxRtt then ((trials t.i.toNat).getRtt handle 0).2
      else t.maxRtt).toNat = _
    rw [h.i, hrtt, largest_snoc, ← h.maxRtt]
    split_ifs with hgt
    · have hgt : t.maxRtt.toNat < (o.getD 0).toNat := BitVec.lt_def.1 hgt
      omega
    · have hle : ¬ t.maxRtt.toNat < (o.getD 0).toNat := fun hlt => hgt (BitVec.lt_def.2 hlt)
      omega
  · change (if ((trials t.i.toNat).getRtt handle 0).1 ≠ 0 then t.errs + 1 else t.errs).toNat = _
    have hle := failures_le os
    rw [h.i, failures_snoc]
    simp only [herr]
    split_ifs with hnone
    · rw [BitVec.toNat_add, h.errs]
      exact Nat.mod_eq_of_lt (by change failures os + 1 < 2 ^ 32; rw [h.i] at hnext; have := (t.i + 1).isLt; omega)
    · exact h.errs

theorem outcomes_succ (handle : Handle) (trials : ℕ → Trial) (n : ℕ) :
    outcomes handle trials (n + 1) = outcomes handle trials n ++ [(trials n).outcome handle] := by
  rw [outcomes, List.range_succ, List.map_append]
  rfl

theorem length_outcomes (handle : Handle) (trials : ℕ → Trial) (n : ℕ) : (outcomes handle trials n).length = n := by
  rw [outcomes, List.length_map, List.length_range]

/-- **The loop.** -/
theorem trialLoop_tallied {handle : Handle} {trials : ℕ → Trial} {numTrials : BitVec 32} {t : Tally} {n : ℕ}
    (h : Tallied (outcomes handle trials n) t) (hn : n ≤ numTrials.toNat) :
    Tallied (outcomes handle trials numTrials.toNat) (trialLoop handle trials numTrials t) := by
  have hi : t.i.toNat = n := by rw [h.i, length_outcomes]
  induction t using trialLoop.induct handle trials numTrials generalizing n with
  | case1 t hlt ih =>
    have hlt' : t.i.toNat < numTrials.toNat := BitVec.lt_def.1 hlt
    have hstep := h.oneTrial handle trials hlt
    rw [length_outcomes, ← outcomes_succ] at hstep
    rw [trialLoop, if_pos hlt]
    apply ih hstep (by omega)
    rw [hstep.i, length_outcomes]
  | case2 t hge =>
    have hge' : ¬ t.i.toNat < numTrials.toNat := fun hlt => hge (BitVec.lt_def.2 hlt)
    obtain rfl : n = numTrials.toNat := by omega
    rwa [trialLoop, if_neg hge]

/-! ## The report -/

theorem length_rtts (os : List Outcome) : (rtts os).length + failures os = os.length := by
  rw [rtts, List.length_map, failures, List.countP_eq_length_filter]
  exact List.length_eq_reduceOption_length_add_filter_none.symm

/-- **What is reported.** In particular nothing is divided by zero. -/
theorem spawnClient_eq {curl : Libcurl} {arg : ClientIn} {handle : Handle}
    (hhandle : setupCurl curl arg.nport arg.srcip = some handle) (trials : ℕ → Trial) (out : ClientOut) :
    ∃ report, spawnClient curl arg trials out = some report ∧ report.retcode = 0 ∧
      report.errs.toNat = failures (outcomes handle trials arg.numTrials.toNat) ∧
      report.maxRtt.toNat = largest (outcomes handle trials arg.numTrials.toNat) ∧
      report.avgRtt.toNat = total (outcomes handle trials arg.numTrials.toNat) % 2 ^ 32 /
        (rtts (outcomes handle trials arg.numTrials.toNat)).length := by
  have hstart : Tallied (outcomes handle trials 0) ⟨0, 0, 0, 0⟩ := ⟨rfl, rfl, rfl, rfl⟩
  have htally : Tallied (outcomes handle trials arg.numTrials.toNat)
      (trialLoop handle trials arg.numTrials ⟨0, 0, 0, 0⟩) := trialLoop_tallied hstart (Nat.zero_le _)
  have hlength := length_rtts (outcomes handle trials arg.numTrials.toNat)
  rw [length_outcomes] at hlength
  set os := outcomes handle trials arg.numTrials.toNat
  unfold spawnClient
  rw [hhandle]
  set t := trialLoop handle trials arg.numTrials ⟨0, 0, 0, 0⟩
  by_cases hall : t.errs = arg.numTrials
  · have hnone : (rtts os).length = 0 := by
      have herrs := htally.errs
      rw [hall] at herrs
      omega
    refine ⟨_, if_pos hall, rfl, htally.errs, htally.maxRtt, ?_⟩
    rw [hnone, Nat.div_zero]
    rfl
  · have hle : t.errs ≤ arg.numTrials := by
      rw [BitVec.le_def, htally.errs]
      omega
    have hsub : (arg.numTrials - t.errs).toNat = (rtts os).length := by
      rw [BitVec.toNat_sub_of_le hle, htally.errs]
      omega
    have hne : arg.numTrials - t.errs ≠ 0 := by
      intro h0
      apply hall
      apply BitVec.eq_of_toNat_eq
      rw [h0] at hsub
      rw [htally.errs]
      change 0 = (rtts os).length at hsub
      omega
    refine ⟨_, (if_neg hall).trans (by rw [divide, if_neg hne]; rfl), rfl, htally.errs, htally.maxRtt, ?_⟩
    rw [← hsub, ← htally.rttSum]
    exact BitVec.toNat_udiv

theorem total_le (os : List Outcome) : total os ≤ (rtts os).length * largest os := by
  have hle : ∀ x ∈ rtts os, x ≤ largest os := by
    intro x hx
    rw [largest, List.foldl_eq_foldr]
    exact List.le_max_of_le' 0 hx le_rfl
  exact List.sum_le_card_nsmul _ _ hle

/-- a sum that is too large makes the mean too small -/
theorem mean_eq_iff (sum : ℕ) {n : ℕ} (hn : n < 2 ^ 32) (hsum : n = 0 → sum = 0) :
    sum % 2 ^ 32 / n = sum / n ↔ sum < 2 ^ 32 := by
  constructor
  · intro h
    by_contra hle
    rw [not_lt] at hle
    have hpos : 0 < n := Nat.pos_of_ne_zero fun h0 => by have := hsum h0; omega
    have hbelow : sum % 2 ^ 32 + n ≤ sum := by omega
    have hless : sum % 2 ^ 32 / n < sum / n :=
      calc
        sum % 2 ^ 32 / n < sum % 2 ^ 32 / n + 1 := Nat.lt_succ_self _
        _ = (sum % 2 ^ 32 + n) / n := (Nat.add_div_right _ hpos).symm
        _ ≤ sum / n := Nat.div_le_div_right hbelow
    exact hless.ne h
  · intro h
    rw [Nat.mod_eq_of_lt h]

/-- **When the statistics are exact.** For every number of trials and whatever happens in them, once the handle is set
up: just when the rtts of the successful trials come to less than 2^32. -/
theorem statistics_exact_iff (curl : Libcurl) (arg : ClientIn) (handle : Handle)
    (hhandle : setupCurl curl arg.nport arg.srcip = some handle) (trials : ℕ → Trial) (out : ClientOut) :
    (∃ report, spawnClient curl arg trials out = some report ∧
      Exact (outcomes handle trials arg.numTrials.toNat) report) ↔
    total (outcomes handle trials arg.numTrials.toNat) < 2 ^ 32 := by
  obtain ⟨report, hreport, -, herrs, hmax, havg⟩ := spawnClient_eq hhandle trials out
  have hlength := length_rtts (outcomes handle trials arg.numTrials.toNat)
  rw [length_outcomes] at hlength
  have htotal := total_le (outcomes handle trials arg.numTrials.toNat)
  set os := outcomes handle trials arg.numTrials.toNat
  have hn : (rtts os).length < 2 ^ 32 := by have := arg.numTrials.isLt; omega
  have hmean := mean_eq_iff (total os) hn (fun h0 => by rw [h0, Nat.zero_mul] at htotal; omega)
  constructor
  · intro h
    obtain ⟨report', hreport', hexact⟩ := h
    obtain rfl := Option.some.inj (hreport.symm.trans hreport')
    rw [← hmean, ← havg]
    exact hexact.avgRtt
  · intro hlt
    have havg' := havg.trans (hmean.2 hlt)
    refine ⟨report, hreport, herrs, hmax, havg', ?_⟩
    rw [BitVec.le_def, havg', hmax]
    exact Nat.div_le_of_le_mul htotal

/-! ## Slow trials -/

theorem outcomes_same (handle : Handle) (t : Trial) (n : ℕ) :
    outcomes handle (fun _ => t) n = List.replicate n (t.outcome handle) := by
  rw [outcomes, List.map_const', List.length_range]

theorem rtts_replicate (n : ℕ) (rtt : BitVec 32) : rtts (List.replicate n (some rtt)) = List.replicate n rtt.toNat := by
  have hreduce : (List.replicate n (some rtt)).reduceOption = List.replicate n rtt := by
    induction n with
    | zero => rfl
    | succ n ih => rw [List.replicate_succ, List.reduceOption_cons_of_some, ih, List.replicate_succ]
  rw [rtts, hreduce, List.map_replicate]

theorem total_replicate (n : ℕ) (rtt : BitVec 32) : total (List.replicate n (some rtt)) = n * rtt.toNat := by
  rw [total, rtts_replicate, List.sum_replicate, smul_eq_mul]

theorem length_rtts_replicate (n : ℕ) (rtt : BitVec 32) : (rtts (List.replicate n (some rtt))).length = n := by
  rw [rtts_replicate, List.length_replicate]

/-- a client with that many trials -/
def clientOf (numTrials : BitVec 32) : ClientIn := ⟨0x110b040a, 0x5000, numTrials⟩

def freshOut : ClientOut := ⟨0, 0, 0, 0⟩

/-- **3 trials of a second each** are reported as they are. -/
theorem three_trials_exact :
    (∃ report, spawnClient aborting (clientOf 3) (fun _ => trialOf (some 1000000)) freshOut = some report ∧
      Exact (outcomes someHandle (fun _ => trialOf (some 1000000)) 3) report) ↔
    total (outcomes someHandle (fun _ => trialOf (some 1000000)) 3) < 2 ^ 32 :=
  statistics_exact_iff aborting (clientOf 3) someHandle rfl (fun _ => trialOf (some 1000000)) freshOut

/-- trials that all take the same time -/
theorem same_trials {curl : Libcurl} {arg : ClientIn} {handle : Handle}
    (hhandle : setupCurl curl arg.nport arg.srcip = some handle) (rtt : BitVec 32) (out : ClientOut) :
    ∃ report, spawnClient curl arg (fun _ => trialOf (some rtt)) out = some report ∧
      report.avgRtt.toNat = arg.numTrials.toNat * rtt.toNat % 2 ^ 32 / arg.numTrials.toNat ∧
      (Exact (outcomes handle (fun _ => trialOf (some rtt)) arg.numTrials.toNat) report →
        report.avgRtt.toNat = arg.numTrials.toNat * rtt.toNat / arg.numTrials.toNat) := by
  have houtcomes : outcomes handle (fun _ => trialOf (some rtt)) arg.numTrials.toNat =
      List.replicate arg.numTrials.toNat (some rtt) := by
    rw [outcomes_same, outcome_trialOf hhandle]
  obtain ⟨report, hreport, -, -, -, havg⟩ := spawnClient_eq hhandle (fun _ => trialOf (some rtt)) out
  rw [houtcomes, total_replicate, length_rtts_replicate] at havg
  refine ⟨report, hreport, havg, ?_⟩
  intro hexact
  rw [hexact.avgRtt, houtcomes, total_replicate, length_rtts_replicate]

/-- **4295 trials of a second each** come out with a mean of 7 microseconds. -/
theorem slow_trials_misreported :
    ∃ report, spawnClient aborting (clientOf 4295) (fun _ => trialOf (some 1000000)) freshOut = some report ∧
      report.avgRtt.toNat = 7 ∧ ¬ Exact (outcomes someHandle (fun _ => trialOf (some 1000000)) 4295) report := by
  have hhandle : setupCurl aborting (clientOf 4295).nport (clientOf 4295).srcip = some someHandle := rfl
  obtain ⟨report, hreport, havg, hexact⟩ := same_trials hhandle 1000000 freshOut
  refine ⟨report, hreport, havg, fun hmean => ?_⟩
  have hwrong := havg.symm.trans (hexact hmean)
  exact absurd hwrong (by decide)

end NetSec.Client
