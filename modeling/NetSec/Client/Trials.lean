/-
What a trial reports: run_trial (client/trial1.c, trial2.c and trial3.c) over spawn_client.

A trial starts a thread of spawn_client for each client, joins them in order, and adds up what they return
(`joinStep`). The three differ in what is taken for the largest rtt and in what the sum of the averages is divided by:
trial1 and trial3 divide by the number of clients, trial2 by the number of those that could do their part; trial3 takes
the largest average for the largest rtt. The error rates are `errsSum` and `errsMax` over constants, as floating point
numbers, and left out; so are the resolvers and the scanner of trial2 and trial3.

- `totalled_step`: one more client;
- `trials_summarised`: what each trial prints, in terms of what happened in all of its clients' attempts together.
-/
import NetSec.Client.Statistics
import NetSec.Core.Run

namespace NetSec.Client

open NetSec.Run

/-! ## run_trial -/

/-- a client, and what happens to it -/
structure ClientThread where
  curl : Libcurl
  arg : ClientIn
  trials : ℕ → Trial
  /-- what the block for its results holds when it is allocated -/
  block : ClientOut

def ClientThread.run (c : ClientThread) : Option ClientOut := spawnClient c.curl c.arg c.trials c.block

/-- the variables of run_trial; `totalHits` is trial2's -/
structure Totals where
  rttAvgSum : BitVec 32
  rttMax : BitVec 32
  errsSum : BitVec 32
  errsMax : BitVec 32
  totalHits : BitVec 32

/-- a thread is joined; `top` is what of its results is taken for its largest rtt -/
def Totals.join (top : ClientOut → BitVec 32) (t : Totals) (ret : ClientOut) : Totals :=
  if ret.retcode = 0 then
    { rttAvgSum := t.rttAvgSum + ret.avgRtt
      rttMax := if top ret > t.rttMax then top ret else t.rttMax
      errsSum := t.errsSum + ret.errs
      errsMax := if ret.errs > t.errsMax then ret.errs else t.errsMax
      totalHits := t.totalHits + 1 }
  else t

def joinStep (top : ClientOut → BitVec 32) (t : Totals) (c : ClientThread) : Option Totals := c.run.map (t.join top)

/-- what is printed -/
structure Summary where
  avgRtt : BitVec 32
  maxRtt : BitVec 32
  errsSum : BitVec 32
  errsMax : BitVec 32

/-- `divisor` is what the sum of the averages is divided by -/
def runTrial (top : ClientOut → BitVec 32) (divisor : Totals → BitVec 32) (clients : List ClientThread) :
    Option Summary :=
  (run (joinStep top) ⟨0, 0, 0, 0, 0⟩ clients).bind fun t =>
    (divide t.rttAvgSum (divisor t)).map fun avg => ⟨avg, t.rttMax, t.errsSum, t.errsMax⟩

def trial1 : List ClientThread → Option Summary := runTrial ClientOut.maxRtt fun _ => 3 * 3

def trial2 : List ClientThread → Option Summary := runTrial ClientOut.maxRtt Totals.totalHits

def trial3 : List ClientThread → Option Summary := runTrial ClientOut.avgRtt fun _ => 2 * 3

/-! ## What happened -/

def ClientThread.handle (c : ClientThread) : Option Handle := setupCurl c.curl c.arg.nport c.arg.srcip

/-- the outcomes of its attempts; none if it was not set up -/
def ClientThread.outcomes (c : ClientThread) : List Outcome :=
  c.handle.elim [] fun handle => Client.outcomes handle c.trials c.arg.numTrials.toNat

/-- the average that it returns; 0 if it was not set up -/
def ClientThread.mean (c : ClientThread) : ℕ := total c.outcomes % 2 ^ 32 / (rtts c.outcomes).length

/-- what the variables hold after these clients -/
structure Totalled (top : ClientThread → ℕ) (cs : List ClientThread) (t : Totals) : Prop where
  rttAvgSum : t.rttAvgSum.toNat = (cs.map ClientThread.mean).sum % 2 ^ 32
  rttMax : t.rttMax.toNat = (cs.map top).foldl max 0
  errsSum : t.errsSum.toNat = failures (cs.flatMap ClientThread.outcomes) % 2 ^ 32
  errsMax : t.errsMax.toNat = (cs.map fun c => failures c.outcomes).foldl max 0
  totalHits : t.totalHits.toNat = cs.countP (fun c => c.handle.isSome) % 2 ^ 32

/-- what the thread of a client returns -/
theorem run_client (c : ClientThread) : ∃ ret, c.run = some ret ∧
    ((c.handle = none ∧ c.outcomes = [] ∧ ret.retcode ≠ 0) ∨
      (c.handle.isSome ∧ ret.retcode = 0 ∧ ret.errs.toNat = failures c.outcomes ∧
        ret.maxRtt.toNat = largest c.outcomes ∧ ret.avgRtt.toNat = c.mean)) := by
  cases hhandle : setupCurl c.curl c.arg.nport c.arg.srcip with
  | none =>
    have hnone : c.handle = none := hhandle
    refine ⟨_, by rw [ClientThread.run, spawnClient, hhandle], Or.inl ⟨hnone, ?_, by norm_num⟩⟩
    rw [ClientThread.outcomes, hnone]
    rfl
  | some handle =>
    have hsome : c.handle = some handle := hhandle
    have houtcomes : c.outcomes = Client.outcomes handle c.trials c.arg.numTrials.toNat := by
      rw [ClientThread.outcomes, hsome]
      rfl
    obtain ⟨ret, hret, hcode, herrs, hmax, havg⟩ := spawnClient_eq hhandle c.trials c.block
    refine ⟨ret, hret, Or.inr ⟨by rw [hsome]; rfl, hcode, ?_, ?_, ?_⟩⟩
    · rw [houtcomes, herrs]
    · rw [houtcomes, hmax]
    · rw [ClientThread.mean, houtcomes, havg]

/-! ## The totals -/

theorem failures_append (a b : List Outcome) : failures (a ++ b) = failures a + failures b := List.countP_append

theorem foldl_max_snoc (l : List ℕ) (n : ℕ) : (l ++ [n]).foldl max 0 = max (l.foldl max 0) n := by
  rw [List.foldl_append]
  rfl

theorem toNat_larger (a b : BitVec 32) : (if a > b then a else b).toNat = max b.toNat a.toNat := by
  split_ifs with h
  · have hlt : b.toNat < a.toNat := BitVec.lt_def.1 h
    omega
  · have hle : ¬ b.toNat < a.toNat := fun hlt => h (BitVec.lt_def.2 hlt)
    omega

theorem toNat_add_mod {a b : BitVec 32} {m n : ℕ} (ha : a.toNat = m % 2 ^ 32) (hb : b.toNat = n) :
    (a + b).toNat = (m + n) % 2 ^ 32 := by
  rw [BitVec.toNat_add, ha, hb, Nat.mod_add_mod]

/-- **One more client.** -/
theorem totalled_step {top : ClientOut → BitVec 32} {largestOf : ClientThread → ℕ}
    (htop : ∀ c ret, c.run = some ret → ret.retcode = 0 → (top ret).toNat = largestOf c)
    (hnone : ∀ c, c.outcomes = [] → largestOf c = 0) {cs : List ClientThread} {t : Totals}
    (h : Totalled largestOf cs t) (c : ClientThread) :
    ∃ t', joinStep top t c = some t' ∧ Totalled largestOf (cs ++ [c]) t' := by
  obtain ⟨ret, hret, hcase⟩ := run_client c
  refine ⟨t.join top ret, by rw [joinStep, hret, Option.map_some], ?_⟩
  have hfail : failures ((cs ++ [c]).flatMap ClientThread.outcomes) =
      failures (cs.flatMap ClientThread.outcomes) + failures c.outcomes := by
    rw [List.flatMap_append, failures_append, List.flatMap_singleton]
  rcases hcase with ⟨hhandle, houtcomes, hcode⟩ | ⟨hhandle, hcode, herrs, -, havg⟩
  · -- it did not take part
    have hmean : c.mean = 0 := by
      rw [ClientThread.mean, houtcomes]
      rfl
    have hzero : failures c.outcomes = 0 := by
      rw [houtcomes]
      rfl
    rw [Totals.join, if_neg hcode]
    constructor
    · rw [h.rttAvgSum, List.map_append, List.sum_append, List.map_singleton, List.sum_singleton, hmean, add_zero]
    · rw [h.rttMax, List.map_append, List.map_singleton, foldl_max_snoc, hnone c houtcomes, Nat.max_zero]
    · rw [h.errsSum, hfail, hzero, add_zero]
    · rw [h.errsMax, List.map_append, List.map_singleton, foldl_max_snoc, hzero, Nat.max_zero]
    · rw [h.totalHits, List.countP_append, List.countP_singleton, hhandle]
      rfl
  · rw [Totals.join, if_pos hcode]
    constructor
    · rw [List.map_append, List.sum_append, List.map_singleton, List.sum_singleton]
      exact toNat_add_mod h.rttAvgSum havg
    · rw [List.map_append, List.map_singleton, foldl_max_snoc, ← h.rttMax, ← htop c ret hret hcode]
      exact toNat_larger _ _
    · rw [hfail]
      exact toNat_add_mod h.errsSum herrs
    · rw [List.map_append, List.map_singleton, foldl_max_snoc, ← h.errsMax, ← herrs]
      exact toNat_larger _ _
    · rw [List.countP_append, List.countP_singleton, if_pos hhandle]
      exact toNat_add_mod h.totalHits rfl

/-- what run_trial has added up when all threads are joined -/
theorem totalled {top : ClientOut → BitVec 32} {largestOf : ClientThread → ℕ}
    (htop : ∀ c ret, c.run = some ret → ret.retcode = 0 → (top ret).toNat = largestOf c)
    (hnone : ∀ c, c.outcomes = [] → largestOf c = 0) (cs : List ClientThread) :
    ∃ t, run (joinStep top) ⟨0, 0, 0, 0, 0⟩ cs = some t ∧ Totalled largestOf cs t := by
  induction cs using List.reverseRecOn with
  | nil => exact ⟨_, rfl, rfl, rfl, rfl, rfl, rfl⟩
  | append_singleton cs c ih =>
    obtain ⟨t, ht, htotalled⟩ := ih
    obtain ⟨t', ht', htotalled'⟩ := totalled_step htop hnone htotalled c
    refine ⟨t', ?_, htotalled'⟩
    rw [run_append, ht, Option.bind_some, run_cons, ht']
    rfl

/-- the largest rtt that a client returns is that of its attempts -/
theorem top_maxRtt (c : ClientThread) (ret : ClientOut) (hret : c.run = some ret) (hcode : ret.retcode = 0) :
    ret.maxRtt.toNat = largest c.outcomes := by
  obtain ⟨ret', hret', ⟨-, -, hne⟩ | ⟨-, -, -, hmax, -⟩⟩ := run_client c
  · obtain rfl := Option.some.inj (hret.symm.trans hret')
    exact absurd hcode hne
  · obtain rfl := Option.some.inj (hret.symm.trans hret')
    exact hmax

theorem top_avgRtt (c : ClientThread) (ret : ClientOut) (hret : c.run = some ret) (hcode : ret.retcode = 0) :
    ret.avgRtt.toNat = c.mean := by
  obtain ⟨ret', hret', ⟨-, -, hne⟩ | ⟨-, -, -, -, havg⟩⟩ := run_client c
  · obtain rfl := Option.some.inj (hret.symm.trans hret')
    exact absurd hcode hne
  · obtain rfl := Option.some.inj (hret.symm.trans hret')
    exact havg

theorem largest_append (a b : List Outcome) : largest (a ++ b) = max (largest a) (largest b) := by
  have hassoc : (rtts b).foldl max (max (largest a) 0) = max (largest a) (largest b) := List.foldl_assoc
  rw [largest, rtts, List.reduceOption_append, List.map_append, List.foldl_append, ← hassoc, Nat.max_zero]
  rfl

/-- the largest of all attempts is the largest of the clients' largest -/
theorem largest_flatMap (cs : List ClientThread) :
    largest (cs.flatMap ClientThread.outcomes) = (cs.map fun c => largest c.outcomes).foldl max 0 := by
  induction cs using List.reverseRecOn with
  | nil => rfl
  | append_singleton cs c ih =>
    rw [List.flatMap_append, List.flatMap_singleton, List.map_append, List.map_singleton, foldl_max_snoc, ← ih,
      largest_append]

/-! ## The summaries -/

/-- all attempts of all clients -/
def attempts (cs : List ClientThread) : List Outcome := cs.flatMap ClientThread.outcomes

/-- what is printed of these clients, their averages divided by `n`, and their largest rtt being `most` -/
structure Prints (cs : List ClientThread) (n most : ℕ) (s : Summary) : Prop where
  avgRtt : s.avgRtt.toNat = (cs.map ClientThread.mean).sum % 2 ^ 32 / n
  maxRtt : s.maxRtt.toNat = most
  errsSum : s.errsSum.toNat = failures (attempts cs)
  errsMax : s.errsMax.toNat = (cs.map fun c => failures c.outcomes).foldl max 0

/-- how many clients were set up -/
def hits (cs : List ClientThread) : ℕ := cs.countP fun c => c.handle.isSome

theorem failures_attempts_lt {cs : List ClientThread}
    (hattempts : (cs.map fun c => c.arg.numTrials.toNat).sum < 2 ^ 32) : failures (attempts cs) < 2 ^ 32 := by
  refine lt_of_le_of_lt ?_ hattempts
  refine (failures_le _).trans ?_
  rw [attempts, List.length_flatMap]
  refine List.sum_le_sum fun c _ => ?_
  rw [ClientThread.outcomes]
  cases c.handle with
  | none => exact Nat.zero_le _
  | some handle => exact (length_outcomes handle c.trials _).le

theorem runTrial_prints {top : ClientOut → BitVec 32} {largestOf : ClientThread → ℕ}
    (htop : ∀ c ret, c.run = some ret → ret.retcode = 0 → (top ret).toNat = largestOf c)
    (hnone : ∀ c, c.outcomes = [] → largestOf c = 0) (divisor : Totals → BitVec 32) {cs : List ClientThread}
    (hattempts : (cs.map fun c => c.arg.numTrials.toNat).sum < 2 ^ 32) :
    ∃ t, Totalled largestOf cs t ∧ (divisor t = 0 → runTrial top divisor cs = none) ∧
      (divisor t ≠ 0 → ∃ s, runTrial top divisor cs = some s ∧
        Prints cs (divisor t).toNat ((cs.map largestOf).foldl max 0) s) := by
  obtain ⟨t, ht, htotalled⟩ := totalled htop hnone cs
  refine ⟨t, htotalled, ?_, ?_⟩
  · intro hzero
    rw [runTrial, ht, Option.bind_some, divide, if_pos hzero]
    rfl
  · intro hne
    refine ⟨_, by rw [runTrial, ht, Option.bind_some, divide, if_neg hne]; rfl, ?_, htotalled.rttMax, ?_,
      htotalled.errsMax⟩
    · rw [← htotalled.rttAvgSum]
      exact BitVec.toNat_udiv
    · rw [htotalled.errsSum]
      exact Nat.mod_eq_of_lt (failures_attempts_lt hattempts)

/-- **What the trials report.** For less than 2^32 clients with less than 2^32 attempts in all, whatever happens in
these: failures and largest rtts are those of all attempts of the clients that were set up, but for trial3, whose
largest rtt is the largest average. The averages are added up modulo 2^32, each of a sum modulo 2^32 itself; trial1
divides this by 9 and trial3 by 6, the numbers of their clients; trial2 divides by the number of those that were set up,
and ends in a division by zero exactly when none was. -/
theorem trials_summarised (cs : List ClientThread) (hcount : cs.length < 2 ^ 32)
    (hattempts : (cs.map fun c => c.arg.numTrials.toNat).sum < 2 ^ 32) :
    (∃ s, trial1 cs = some s ∧ Prints cs 9 (largest (attempts cs)) s) ∧
      ((hits cs = 0 → trial2 cs = none) ∧
        (hits cs ≠ 0 → ∃ s, trial2 cs = some s ∧ Prints cs (hits cs) (largest (attempts cs)) s)) ∧
      ∃ s, trial3 cs = some s ∧ Prints cs 6 ((cs.map ClientThread.mean).foldl max 0) s := by
  have hlargest : ∀ c : ClientThread, c.outcomes = [] → largest c.outcomes = 0 := fun c h => by rw [h]; rfl
  have hmean : ∀ c : ClientThread, c.outcomes = [] → c.mean = 0 := fun c h => by rw [ClientThread.mean, h]; rfl
  have hall : largest (attempts cs) = (cs.map fun c => largest c.outcomes).foldl max 0 := largest_flatMap cs
  rw [hall]
  refine ⟨?_, ?_, ?_⟩
  · obtain ⟨t, -, -, hprints⟩ := runTrial_prints top_maxRtt hlargest (fun _ => 3 * 3) hattempts
    exact hprints (by decide)
  · obtain ⟨t, htotalled, hzero, hprints⟩ := runTrial_prints top_maxRtt hlargest Totals.totalHits hattempts
    have hhits : t.totalHits.toNat = hits cs := by
      rw [htotalled.totalHits]
      exact Nat.mod_eq_of_lt (List.countP_le_length.trans_lt hcount)
    have hiff : t.totalHits = 0 ↔ hits cs = 0 := by
      rw [← hhits]
      exact BitVec.toNat_inj.symm
    refine ⟨fun h => hzero (hiff.2 h), ?_⟩
    intro h
    rw [← hhits]
    exact hprints fun h0 => h (hiff.1 h0)
  · obtain ⟨t, -, -, hprints⟩ := runTrial_prints top_avgRtt hmean (fun _ => 2 * 3) hattempts
    exact hprints (by decide)

/-- a client whose attempts all take 20 ms, and one that curl_easy_init fails for -/
def steady : ClientThread := ⟨aborting, clientOf 1000, fun _ => trialOf (some 20000), freshOut⟩
def notSetUp : ClientThread := { steady with curl := { aborting with easyInit := false } }

/-- `n` clients, the last of which is not set up -/
def clientsOfTrial (n : ℕ) : List ClientThread := List.replicate (n - 1) steady ++ [notSetUp]

theorem trials_summarised_nine : hits (clientsOfTrial 9) = 8 ∧
    (∃ s, trial1 (clientsOfTrial 9) = some s ∧
      Prints (clientsOfTrial 9) 9 (largest (attempts (clientsOfTrial 9))) s) ∧
    (∃ s, trial2 (clientsOfTrial 9) = some s ∧
      Prints (clientsOfTrial 9) (hits (clientsOfTrial 9)) (largest (attempts (clientsOfTrial 9))) s) ∧
    (∃ s, trial3 (clientsOfTrial 6) = some s ∧
      Prints (clientsOfTrial 6) 6 (((clientsOfTrial 6).map ClientThread.mean).foldl max 0) s) ∧
    trial2 [notSetUp] = none := by
  have hnine := trials_summarised (clientsOfTrial 9) (by decide) (by decide)
  have hsix := trials_summarised (clientsOfTrial 6) (by decide) (by decide)
  have hone := trials_summarised [notSetUp] (by decide) (by decide)
  exact ⟨rfl, hnine.1, hnine.2.1.2 (by decide), hsix.2.2, hone.2.1.1 rfl⟩

end NetSec.Client
