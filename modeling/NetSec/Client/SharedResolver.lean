/-
Can a resolver that threads share serve an expired entry?

spawn_client gives every thread the same DNS_RESOLVER. A call of resolve reads the clock, waits for rwlock, scans with
the time it read, on a miss queries and inserts with the lock still held, and releases it; the clock may go on between
any two of these steps. `found` is the entry that a scan serves, and `ServesFresh` says of a step that it is unexpired
when the scan is made.

It fails (`stale_reading_served`): the time is read before the lock is waited for. A thread that waits while the clock
goes past an entry's TTL is served the entry.

- `serves_fresh_iff`: in every interleaving, all that is served is unexpired exactly when each scan meets no entry of
  its name that has expired since the thread read the clock, unless a newer one that has not stands in front
  (`ScanClear`);
- `scanClear_of_current`: a scan in the second of its reading is clear;
- `resolve_reached`: a thread that runs alone does what `resolve` does.
-/
import NetSec.Client.Resolver
import NetSec.Core.Mutex
import NetSec.Core.Run

namespace NetSec.Client

open NetSec.LinkedCells NetSec.Mutex NetSec.Run NetSec.TtlMap

/-! ## Model -/

/-- where a thread is -/
inductive ResolvePc where
  | idle
  | waiting (hostname : Text) (timestamp : ℤ)
  | locked (hostname : Text) (timestamp : ℤ)
  | missed (hostname : Text) (timestamp : ℤ)
  | leaving (answer : Answer (BitVec 32))
deriving DecidableEq

structure Shared where
  res : DnsResolver
  rwlock : Objects ℕ
  clock : ℤ
  thread : ℕ → ResolvePc

inductive SharedOp where
  | wait (seconds : ℕ)
  /-- thread `i` calls resolve, which reads the clock -/
  | call (i : ℕ) (hostname : Text)
  | lock (i : ℕ)
  | scan (i : ℕ)
  /-- query_dns, with what it brings, and the insertion -/
  | query (i : ℕ) (answer : Option (BitVec 32 × BitVec 32))
  | unlock (i : ℕ)
deriving DecidableEq, Repr

def Shared.goto (x : Shared) (i : ℕ) (pc : ResolvePc) : Shared := { x with thread := Function.update x.thread i pc }

/-- the scan of one call, at the time that the call has read -/
def Shared.scanned (x : Shared) (hostname : Text) (timestamp : ℤ) : Option DnsTableEntry × DnsResolver :=
  scan timestamp hostname x.res.heap.length x.res.head x.res

def sharedStep (x : Shared) : SharedOp → Option Shared
  | .wait seconds => some { x with clock := x.clock + seconds }
  | .call i hostname =>
    match x.thread i with
    | .idle => some (x.goto i (.waiting hostname x.clock))
    | _ => none
  | .lock i =>
    match x.thread i with
    | .waiting hostname timestamp =>
      (lock 0 i x.rwlock).map fun rwlock => { x with rwlock := rwlock }.goto i (.locked hostname timestamp)
    | _ => none
  | .scan i =>
    match x.thread i with
    | .locked hostname timestamp =>
      let y := { x with res := (x.scanned hostname timestamp).2 }
      match (x.scanned hostname timestamp).1 with
      | some e => some (y.goto i (.leaving (.cached e.hexAddr)))
      | none => some (y.goto i (.missed hostname timestamp))
    | _ => none
  | .query i answer =>
    match x.thread i with
    | .missed hostname timestamp =>
      match answer with
      | none => some (x.goto i (.leaving .failed))
      | some (hexAddr, ttl) =>
        some ({ x with res := insertEntry hostname hexAddr ttl timestamp x.res }.goto i (.leaving (.fetched hexAddr)))
    | _ => none
  | .unlock i =>
    match x.thread i with
    | .leaving _ => some ({ x with rwlock := unlock 0 x.rwlock }.goto i .idle)
    | _ => none

/-- dns_init, and threads that have made no call yet -/
def startShared (t : ℤ) : Shared := ⟨dnsInit, [none], t, fun _ => .idle⟩

/-! ## Properties -/

/-- the scan that the step makes: the name and the time read -/
def scanning (x : Shared) : SharedOp → Option (Text × ℤ)
  | .scan i =>
    match x.thread i with
    | .locked hostname timestamp => some (hostname, timestamp)
    | _ => none
  | _ => none

/-- the entry that the step serves -/
def found (x : Shared) (o : SharedOp) : Option (Entry Text (BitVec 32)) :=
  (scanning x o).bind fun s => (x.scanned s.1 s.2).1.map DnsTableEntry.entry

/-- what is served from the cache is unexpired now -/
def ServesFresh (x : Shared) (o : SharedOp) : Prop := ∀ e, found x o = some e → e.Live x.clock

/-- entries of the name that have expired since the reading stand behind one that has not -/
def ScanClear (x : Shared) (o : SharedOp) : Prop :=
  ∀ s, scanning x o = some s → ∀ front e behind, x.res.listed x.res.reachable = front ++ e :: behind → e.key = s.1 →
    e.Live s.2 → ¬ e.Live x.clock → ∃ e' ∈ front, e'.key = s.1 ∧ e'.Live x.clock

/-! ## Threads -/

@[simp] theorem thread_goto_self (x : Shared) (i : ℕ) (pc : ResolvePc) : (x.goto i pc).thread i = pc :=
  Function.update_self _ _ _

theorem thread_goto_ne (x : Shared) {i j : ℕ} (h : j ≠ i) (pc : ResolvePc) : (x.goto i pc).thread j = x.thread j :=
  Function.update_of_ne h _ _

/-- the time that a call has read -/
def ResolvePc.reading : ResolvePc → Option ℤ
  | .waiting _ timestamp => some timestamp
  | .locked _ timestamp => some timestamp
  | .missed _ timestamp => some timestamp
  | _ => none

/-- the list is linked, and no time read is in the future -/
structure SharedInv (x : Shared) : Prop where
  linked : ∃ l, Linked x.res l
  past : ∀ i t, (x.thread i).reading = some t → t ≤ x.clock

theorem sharedInv_start (t : ℤ) : SharedInv (startShared t) :=
  ⟨⟨[], linked_dnsInit⟩, fun i t' h => by simp [startShared, ResolvePc.reading] at h⟩

/-- a thread goes on with the time it has read, or with none, or with a new one -/
theorem past_goto {x : Shared} (h : SharedInv x) {i : ℕ} {pc : ResolvePc}
    (hpc : ∀ t, pc.reading = some t → t ≤ x.clock) :
    ∀ j t, ((x.goto i pc).thread j).reading = some t → t ≤ x.clock := by
  intro j t ht
  by_cases hj : j = i
  · subst hj
    rw [thread_goto_self] at ht
    exact hpc t ht
  · rw [thread_goto_ne x hj] at ht
    exact h.past j t ht

/-- a scan keeps the list linked, and finds what a lookup in the list finds -/
theorem scanned_linked {x : Shared} (h : SharedInv x) (hostname : Text) (timestamp : ℤ) :
    (∃ l, Linked (x.scanned hostname timestamp).2 l) ∧
      (x.scanned hostname timestamp).1.map DnsTableEntry.entry =
        lookup timestamp hostname (x.res.listed x.res.reachable) := by
  obtain ⟨l, hl⟩ := h.linked
  obtain ⟨l', hlinked, -, -, hfound⟩ := scan_head_linked timestamp hostname hl
  rw [hl.reachable_eq]
  exact ⟨⟨l', hlinked⟩, hfound⟩

/-- **Every step keeps the invariant**, whatever the scans serve. -/
theorem sharedInv_step {x x' : Shared} {o : SharedOp} (h : SharedInv x) (hs : sharedStep x o = some x') :
    SharedInv x' := by
  cases o with
  | wait seconds =>
    simp only [sharedStep, Option.some.injEq] at hs
    subst hs
    refine ⟨h.linked, ?_⟩
    intro i t ht
    have := h.past i t ht
    simp only
    omega
  | call i hostname =>
    simp only [sharedStep] at hs
    split at hs
    · simp only [Option.some.injEq] at hs
      subst hs
      refine ⟨h.linked, past_goto h ?_⟩
      intro t ht
      exact le_of_eq (Option.some.inj ht).symm
    · cases hs
  | lock i =>
    simp only [sharedStep] at hs
    split at hs
    · rename_i hostname timestamp hpc
      simp only [Option.map_eq_some_iff] at hs
      obtain ⟨rwlock, -, rfl⟩ := hs
      refine ⟨h.linked, past_goto h ?_⟩
      intro t ht
      exact h.past i t (by rw [hpc]; exact ht)
    · cases hs
  | scan i =>
    simp only [sharedStep] at hs
    split at hs
    · rename_i hostname timestamp hpc
      have hlinked := (scanned_linked h hostname timestamp).1
      have hpast : timestamp ≤ x.clock := h.past i timestamp (by rw [hpc]; rfl)
      split at hs <;> simp only [Option.some.injEq] at hs <;> subst hs
      · exact ⟨hlinked, past_goto h fun t ht => by cases ht⟩
      · exact ⟨hlinked, past_goto h fun t ht => by rw [← Option.some.inj ht]; exact hpast⟩
    · cases hs
  | query i answer =>
    simp only [sharedStep] at hs
    split at hs
    · rename_i hostname timestamp hpc
      cases answer with
      | none =>
        simp only [Option.some.injEq] at hs
        subst hs
        exact ⟨h.linked, past_goto h fun t ht => by cases ht⟩
      | some a =>
        simp only [Option.some.injEq] at hs
        subst hs
        obtain ⟨l, hl⟩ := h.linked
        exact ⟨⟨_, insertEntry_linked hl hostname a.1 a.2 timestamp⟩, past_goto h fun t ht => by cases ht⟩
    · cases hs
  | unlock i =>
    simp only [sharedStep] at hs
    split at hs
    · simp only [Option.some.injEq] at hs
      subst hs
      exact ⟨h.linked, past_goto h fun t ht => by cases ht⟩
    · cases hs

/-! ## The exact condition -/

theorem scanning_past {x : Shared} {o : SharedOp} {s : Text × ℤ} (h : SharedInv x) (hs : scanning x o = some s) :
    s.2 ≤ x.clock := by
  cases o with
  | scan i =>
    simp only [scanning] at hs
    split at hs
    · rename_i hostname timestamp hpc
      rw [← Option.some.inj hs]
      exact h.past i timestamp (by rw [hpc]; rfl)
    · cases hs
  | _ => cases hs

theorem servesFresh_iff {x : Shared} (h : SharedInv x) (o : SharedOp) : ServesFresh x o ↔ ScanClear x o := by
  unfold ServesFresh ScanClear found
  cases hscan : scanning x o with
  | none => simp
  | some s =>
    have hlater := lookup_live_later_iff (scanning_past h hscan) s.1 (x.res.listed x.res.reachable)
    rw [Option.bind_some, (scanned_linked h s.1 s.2).2, hlater]
    refine ⟨?_, fun hc => hc s rfl⟩
    rintro hc _ ⟨⟩
    exact hc

/-- **Only fresh entries are served exactly when no scan meets what expired since its reading.** In every interleaving
of the threads' steps with the clock, from dns_init at any time: whatever is served from the cache is unexpired at the
moment of the scan, if and only if at each scan every entry of the name that has expired since the thread read the
clock stands behind one of the name that has not. -/
theorem serves_fresh_iff (t : ℤ) (ops : List SharedOp) :
    EveryStep sharedStep (fun x o _ => ServesFresh x o) (startShared t) ops ↔
      EveryStep sharedStep (fun x o _ => ScanClear x o) (startShared t) ops := by
  refine everyStep_iff sharedStep (I := SharedInv) ?_ (sharedInv_start t) ops
  intro x o x' h hs
  exact ⟨servesFresh_iff h o, fun _ => sharedInv_step h hs⟩

/-- two threads look up one name: the first one's answer has the TTL 0, and the second waits until it is over -/
def staleRun (hostname : Text) : List SharedOp :=
  [.call 0 hostname, .call 1 hostname, .lock 0, .scan 0, .query 0 (some (7, 0)), .unlock 0, .wait 1, .lock 1]

/-- **An expired entry is served.** Its TTL ran out at 0, and the scan is made at 1. -/
theorem stale_reading_served : (∃ x, run sharedStep (startShared 0) (staleRun "h".toList) = some x ∧ x.clock = 1 ∧
      found x (.scan 1) = some ⟨"h".toList, 7, 0, 0⟩ ∧
      ∃ x', sharedStep x (.scan 1) = some x' ∧ x'.thread 1 = .leaving (.cached 7)) ∧
    ¬ EveryStep sharedStep (fun x o _ => ServesFresh x o) (startShared 0) (staleRun "h".toList ++ [.scan 1]) := by
  refine ⟨⟨_, rfl, rfl, rfl, _, rfl, rfl⟩, ?_⟩
  intro h
  have hbad := h (staleRun "h".toList) (.scan 1) (List.prefix_refl _) _ _ rfl rfl ⟨"h".toList, 7, 0, 0⟩ rfl
  revert hbad
  decide

/-! ## Undisturbed calls -/

/-- **A scan in the second of its reading is clear.** -/
theorem scanClear_of_current {x : Shared} {o : SharedOp} (h : ∀ s, scanning x o = some s → s.2 = x.clock) :
    ScanClear x o := by
  intro s hs front e behind _ _ hlive hdead
  rw [h s hs] at hlive
  exact absurd hlive hdead

/-- **A call that runs alone is `resolve`.** With the lock free, some steps of the thread give the answer and the table
that `resolve` gives at the time read. -/
theorem resolve_reached {x : Shared} {i : ℕ} (hidle : x.thread i = .idle) (hfree : Free x.rwlock 0) (hostname : Text)
    (answer : Option (BitVec 32 × BitVec 32)) : ∃ x', Reaches sharedStep x x' ∧
      x'.thread i = .leaving (resolve x.clock hostname answer x.res).1 ∧
      x'.res = (resolve x.clock hostname answer x.res).2 ∧ x'.clock = x.clock := by
  have hlocked : lock 0 i x.rwlock = some (x.rwlock.set 0 (some i)) := by
    unfold Free at hfree
    simp only [lock, hfree]
  let called := x.goto i (.waiting hostname x.clock)
  let holding := { called with rwlock := x.rwlock.set 0 (some i) }.goto i (.locked hostname x.clock)
  have hholding : Reaches sharedStep x holding := by
    calc
      Reaches sharedStep x called := reaches_of_step (o := .call i hostname) (by simp only [sharedStep, hidle, called])
      Reaches sharedStep called holding := reaches_of_step (o := .lock i) (by
        simp only [sharedStep, called, thread_goto_self]
        rw [show (x.goto i (.waiting hostname x.clock)).rwlock = x.rwlock from rfl, hlocked]
        rfl)
  have hpc : holding.thread i = .locked hostname x.clock := thread_goto_self _ _ _
  have hscanned : holding.scanned hostname x.clock = scan x.clock hostname x.res.heap.length x.res.head x.res := rfl
  unfold resolve
  rw [← hscanned]
  rcases hscan : holding.scanned hostname x.clock with ⟨found, res⟩
  cases found with
  | some e =>
    refine ⟨{ holding with res := res }.goto i (.leaving (.cached e.hexAddr)), ?_, thread_goto_self _ _ _, rfl, rfl⟩
    exact hholding.trans (reaches_of_step (o := .scan i) (by simp only [sharedStep, hpc, hscan]))
  | none =>
    let missing := { holding with res := res }.goto i (.missed hostname x.clock)
    have hmissing : Reaches sharedStep x missing :=
      hholding.trans (reaches_of_step (o := .scan i) (by simp only [sharedStep, hpc, hscan, missing]))
    have hmissed : missing.thread i = .missed hostname x.clock := thread_goto_self _ _ _
    cases answer with
    | none =>
      refine ⟨missing.goto i (.leaving .failed), ?_, thread_goto_self _ _ _, rfl, rfl⟩
      exact hmissing.trans (reaches_of_step (o := .query i none) (by simp only [sharedStep, hmissed]))
    | some a =>
      refine ⟨{ missing with res := insertEntry hostname a.1 a.2 x.clock res }.goto i (.leaving (.fetched a.1)), ?_,
        thread_goto_self _ _ _, rfl, rfl⟩
      exact hmissing.trans (reaches_of_step (o := .query i (some a)) (by simp only [sharedStep, hmissed]; rfl))

end NetSec.Client
