/-
Do concurrent calls of checkAddRule keep each rule single?

checkAddRule tests for its rule, then adds or deletes it; no lock is held, so the two are separate steps of a thread.
`applied` is the call whose command a step gives to `iptables`, if any; all other steps leave the rules alone
(`threadStep_rules`). `SingleRules` says of a step that afterwards no table holds a rule twice, that a deletion leaves
its rule absent, and that a rule comes into a table only by an addition of its own.

It fails (`two_bans_duplicate`): two handlers test for the rule of one address before either adds it. The deletion at
the end of the ban removes one of the two, and the address stays banned.

Which tests stay true until the addition that follows them is a matter of what the other threads do in between:
`TestsHold` says of a run that no thread adds a rule between another one's test for it and that one's addition, unless
the rule is deleted again in between.

- `single_step`: a step is right exactly when it applies no -A of a rule that is there;
- `tested_step`: right after its test, a thread applies none;
- `rules_single_iff`: so from any state without duplicates in which no thread is between a test and its command, every
  step of a run is right exactly when the tests hold.
-/
import NetSec.Core.Turns
import NetSec.NatServer.Threads

namespace NetSec.NatServer

open NetSec.RuleTable NetSec.Run

/-! ## Commands -/

/-- what the call's command does to its table -/
def Call.change (c : Call) (rs : List Rule) : List Rule :=
  match c.command with
  | .append => rs ++ [c.rule]
  | .delete => rs.erase c.rule
  | .check => rs

/-- the call that is past its test and whose command is run next -/
def Calls.applied : Calls → Option Call
  | ⟨c :: _, some status⟩ =>
    match c.command with
    | .append => if status ≠ 0 then some c else none
    | .delete => if status = 0 then some c else none
    | .check => none
  | _ => none

/-- the calls a handler is making -/
def Pc.calls : Pc → Option Calls
  | .addRules _ _ calls => some calls
  | .banRules _ calls => some calls
  | _ => none

/-- the calls a cleaner is making -/
def CleanerPc.calls {α : Type} : CleanerPc α → Option Calls
  | .acting _ (some _) calls => some calls
  | _ => none

/-- the calls a thread is making -/
def Threads.calls (t : Threads) : Tid → Option Calls
  | .handler i => (t.handler i).calls
  | .mappingCleaner => t.mappingCleaner.calls
  | .banCleaner => t.banCleaner.calls

/-- the call whose command the thread's next step gives to `iptables` -/
def Threads.tested (t : Threads) (tid : Tid) : Option Call := (t.calls tid).bind Calls.applied

/-- the call whose command the step gives to `iptables` -/
def applied (t : Threads) : ThreadOp → Option Call
  | .handle i _ => (t.handler i).calls.bind Calls.applied
  | .cleanMapping => t.mappingCleaner.calls.bind Calls.applied
  | .cleanBan => t.banCleaner.calls.bind Calls.applied
  | _ => none

/-- the rules after a step that runs the command of `c` -/
def changed (c : Option Call) (fw : Firewall) (table : Table) : List Rule :=
  match c with
  | none => fw.rules table
  | some c => if table = c.table then c.change (fw.rules table) else fw.rules table

/-! ## Properties -/

def NoDuplicates (fw : Firewall) : Prop := ∀ table, (fw.rules table).Nodup

/-- no rule occurs twice, a deleted rule is gone, a new rule was added -/
structure SingleRules (t : Threads) (o : ThreadOp) (t' : Threads) : Prop where
  once : NoDuplicates t'.srv.fw
  deleted : ∀ c, applied t o = some c → c.command = .delete → c.rule ∉ t'.srv.fw.rules c.table
  added : ∀ table r, r ∉ t.srv.fw.rules table → r ∈ t'.srv.fw.rules table → applied t o = some ⟨table, .append, r⟩

/-- what the step writes to the table -/
def written (table : Table) (t : Threads) (o : ThreadOp) : Option (Edit Rule) :=
  match applied t o with
  | some ⟨table', .append, r⟩ => if table = table' then some (.add r) else none
  | some ⟨table', .delete, r⟩ => if table = table' then some (.remove r) else none
  | _ => none

def writings (table : Table) (t : Threads) (o : ThreadOp) : List (Edit Rule) := (written table t o).toList

/-- between a thread's test that does not find the rule and the -A that follows it, no other thread adds the rule, unless
it is deleted again before the -A -/
def TestsHold (t : Threads) (ops : List ThreadOp) : Prop :=
  ∀ tid (u : Turn threadStep ThreadOp.thread tid t ops) c, applied u.last u.next = some c → c.command = .append →
    ¬ Standing c.rule (gather threadStep (writings c.table) u.after u.mid)

/-- an -A is not applied while its rule is in the table -/
def AppliesAbsent (t : Threads) (o : ThreadOp) : Prop :=
  ∀ c, applied t o = some c → c.command = .append → c.rule ∉ t.srv.fw.rules c.table

/-! ## What a step does to the rules -/

theorem rules_system (c : Call) (fw : Firewall) (table : Table) :
    (system (.rule c.table c.command c.rule) fw).2.rules table = changed (some c) fw table := by
  obtain ⟨ctable, command, rule⟩ := c
  cases command <;> cases ctable <;> cases table <;> rfl

/-- a test changes nothing, a command does what its call says -/
theorem callStep_rules {fw fw' : Firewall} {calls calls' : Calls} (h : callStep fw calls = some (calls', fw'))
    (table : Table) : fw'.rules table = changed calls.applied fw table := by
  obtain ⟨_ | ⟨c, cs⟩, status⟩ := calls
  · simp [callStep] at h
  cases status with
  | none =>
    by_cases hc : c.command = .check
    · simp only [callStep, if_pos hc, Option.some.injEq, Prod.mk.injEq] at h
      rw [← h.2]
      rfl
    · simp only [callStep, if_neg hc, Option.some.injEq, Prod.mk.injEq] at h
      rw [← h.2, rules_system ⟨c.table, .check, c.rule⟩]
      simp only [changed, Call.change, Calls.applied]
      split_ifs with ht
      · rw [ht]
      · rfl
  | some status =>
    simp only [callStep, Option.some.injEq, Prod.mk.injEq] at h
    obtain ⟨-, rfl⟩ := h
    cases hc : c.command with
    | check => simp [Calls.applied, changed, hc]
    | append =>
      by_cases hs : status = 0
      · simp [Calls.applied, changed, hc, hs]
      · simpa [Calls.applied, hc, hs] using rules_system c fw table
    | delete =>
      by_cases hs : status = 0
      · simpa [Calls.applied, hc, hs] using rules_system c fw table
      · simp [Calls.applied, changed, hc, hs]

theorem callStep_none {fw : Firewall} {calls : Calls} (h : callStep fw calls = none) : calls.applied = none := by
  obtain ⟨_ | ⟨c, cs⟩, status⟩ := calls
  · rfl
  · cases status with
    | none => rfl
    | some status => simp [callStep] at h

/-- what a step of a thread does to the calls it is making and to the rules -/
inductive CallsStep : Option Calls → Firewall → Option Calls → Firewall → Prop where
  | call {calls calls' : Calls} {fw fw' : Firewall} (h : callStep fw calls = some (calls', fw')) :
    CallsStep (some calls) fw (some calls') fw'
  /-- there are none left -/
  | done {calls : Calls} {fw : Firewall} (h : callStep fw calls = none) : CallsStep (some calls) fw none fw
  /-- no call is made; calls that are about to be made are before their first test -/
  | other {calls' : Option Calls} {fw : Firewall} (h : calls'.bind Calls.applied = none) : CallsStep none fw calls' fw

theorem applied_fresh (calls : List Call) : Calls.applied ⟨calls, none⟩ = none := by
  cases calls <;> rfl

theorem handlerStep_calls {rand : ℕ} {s s' : Server} {pc pc' : Pc} (h : handlerStep rand s pc = some (pc', s')) :
    CallsStep pc.calls s.fw pc'.calls s'.fw := by
  cases pc with
  | addRules isp pub calls =>
    simp only [handlerStep] at h
    split at h <;> simp only [Option.some.injEq, Prod.mk.injEq] at h <;> obtain ⟨rfl, rfl⟩ := h
    · rename_i hcall
      exact .call hcall
    · rename_i hcall
      exact .done hcall
  | banRules ip calls =>
    simp only [handlerStep] at h
    split at h <;> simp only [Option.some.injEq, Prod.mk.injEq] at h <;> obtain ⟨rfl, rfl⟩ := h
    · rename_i hcall
      exact .call hcall
    · rename_i hcall
      exact .done hcall
  | idle => simp [handlerStep] at h
  | _ =>
    -- searches, clock readings, insertions, replies
    simp only [handlerStep] at h
    (try split at h) <;> simp only [Option.some.injEq, Prod.mk.injEq] at h <;> obtain ⟨rfl, rfl⟩ := h <;>
      exact .other rfl

theorem cleanerStep_calls {α : Type} {time : α → ℤ} {action : α → List Call} {now : ℤ} {list list' : List α}
    {fw fw' : Firewall} {pc pc' : CleanerPc α}
    (h : cleanerStep time action now list fw pc = some (pc', list', fw')) : CallsStep pc.calls fw pc'.calls fw' := by
  cases pc with
  | top =>
    simp only [cleanerStep, Option.some.injEq, Prod.mk.injEq] at h
    obtain ⟨rfl, -, rfl⟩ := h
    split_ifs <;> exact .other rfl
  | headSeen =>
    simp only [cleanerStep, Option.map_eq_some_iff, Prod.mk.injEq] at h
    obtain ⟨_, -, rfl, -, rfl⟩ := h
    exact .other rfl
  | waiting elm =>
    simp only [cleanerStep, Option.some.injEq, Prod.mk.injEq] at h
    obtain ⟨rfl, -, rfl⟩ := h
    split_ifs <;> exact .other rfl
  | popping elm =>
    simp only [cleanerStep, Option.some.injEq, Prod.mk.injEq] at h
    obtain ⟨rfl, -, rfl⟩ := h
    cases hp : (popElement list).1 with
    | none => exact .other rfl
    | some popped => exact .other (applied_fresh _)
  | acting waited popped calls =>
    cases popped with
    | none => simp [cleanerStep] at h
    | some popped =>
      simp only [cleanerStep] at h
      split at h <;> simp only [Option.some.injEq, Prod.mk.injEq] at h <;> obtain ⟨rfl, -, rfl⟩ := h
      · rename_i hcall
        exact .call hcall
      · rename_i hcall
        exact .done hcall

theorem CallsStep.rules {calls calls' : Option Calls} {fw fw' : Firewall} (h : CallsStep calls fw calls' fw')
    (table : Table) : fw'.rules table = changed (calls.bind Calls.applied) fw table := by
  cases h with
  | call h => exact callStep_rules h table
  | done h => rw [Option.bind_some, callStep_none h, changed]
  | other h => rfl

/-- **Every step changes the rules by the call it applies, and by nothing else.** -/
theorem threadStep_rules {t t' : Threads} {o : ThreadOp} (h : threadStep t o = some t') (table : Table) :
    t'.srv.fw.rules table = changed (applied t o) t.srv.fw table := by
  cases o with
  | wait d =>
    simp only [threadStep, Option.some.injEq] at h
    rw [← h]
    rfl
  | recvAdd i ip uninit =>
    obtain ⟨-, rfl⟩ := threadStep_recvAdd h
    rfl
  | recvBan i ip =>
    obtain ⟨-, rfl⟩ := threadStep_recvBan h
    rfl
  | handle i rand =>
    obtain ⟨pc, srv, hs, rfl⟩ := threadStep_handle h
    exact (handlerStep_calls hs).rules table
  | cleanMapping =>
    simp only [threadStep, Option.map_eq_some_iff] at h
    obtain ⟨⟨pc, list, fw⟩, hs, rfl⟩ := h
    exact (cleanerStep_calls hs).rules table
  | cleanBan =>
    simp only [threadStep, Option.map_eq_some_iff] at h
    obtain ⟨⟨pc, list, fw⟩, hs, rfl⟩ := h
    exact (cleanerStep_calls hs).rules table

/-! ## One step -/

theorem applied_command {t : Threads} {o : ThreadOp} {c : Call} (h : applied t o = some c) : c.command ≠ .check := by
  have hcalls : ∀ calls : Calls, calls.applied = some c → c.command ≠ .check := by
    rintro ⟨_ | ⟨c', cs⟩, _ | status⟩ ha
    · cases ha
    · cases ha
    · cases ha
    · intro hc
      cases hc' : c'.command with
      | check => simp [Calls.applied, hc'] at ha
      | append =>
        simp only [Calls.applied, hc', Option.ite_none_right_eq_some, Option.some.injEq] at ha
        rw [ha.2, hc] at hc'
        cases hc'
      | delete =>
        simp only [Calls.applied, hc', Option.ite_none_right_eq_some, Option.some.injEq] at ha
        rw [ha.2, hc] at hc'
        cases hc'
  cases o with
  | handle i rand =>
    obtain ⟨calls, -, ha⟩ := Option.bind_eq_some_iff.1 h
    exact hcalls calls ha
  | cleanMapping =>
    obtain ⟨calls, -, ha⟩ := Option.bind_eq_some_iff.1 h
    exact hcalls calls ha
  | cleanBan =>
    obtain ⟨calls, -, ha⟩ := Option.bind_eq_some_iff.1 h
    exact hcalls calls ha
  | _ => cases h

/-- a command on one table, as a change of that table and of no other -/
theorem noDuplicates_changed {c : Call} {fw fw' : Firewall} (h : NoDuplicates fw)
    (hrules : ∀ table, fw'.rules table = changed (some c) fw table) :
    NoDuplicates fw' ↔ (c.change (fw.rules c.table)).Nodup := by
  refine ⟨?_, ?_⟩
  · intro hd
    simpa [hrules, changed] using hd c.table
  · intro hd table
    rw [hrules]
    simp only [changed]
    split_ifs with ht
    · rw [ht]
      exact hd
    · exact h table

theorem single_step {t t' : Threads} {o : ThreadOp} (hd : NoDuplicates t.srv.fw) (h : threadStep t o = some t') :
    SingleRules t o t' ↔ AppliesAbsent t o := by
  have hrules := threadStep_rules h
  cases happ : applied t o with
  | none =>
    rw [happ] at hrules
    refine iff_of_true ⟨?_, by simp [happ], ?_⟩ (by simp [AppliesAbsent, happ])
    · intro table
      rw [hrules]
      exact hd table
    · intro table r hr hr'
      rw [hrules] at hr'
      exact absurd hr' hr
  | some c =>
    rw [happ] at hrules
    have honce := noDuplicates_changed hd hrules
    obtain ⟨table, command, r⟩ := c
    cases command with
    | check => exact absurd rfl (applied_command happ)
    | append =>
      have hclear : AppliesAbsent t o ↔ r ∉ t.srv.fw.rules table := by simp [AppliesAbsent, happ]
      have hnodup : (t.srv.fw.rules table ++ [r]).Nodup ↔ r ∉ t.srv.fw.rules table := by
        rw [← List.concat_eq_append, List.nodup_concat, and_iff_left (hd table)]
      rw [hclear]
      refine ⟨fun hs => hnodup.1 (honce.1 hs.once), ?_⟩
      intro hr
      refine ⟨honce.2 (hnodup.2 hr), ?_, ?_⟩
      · intro c hc hdelete
        rw [happ, Option.some.injEq] at hc
        rw [← hc] at hdelete
        cases hdelete
      · intro table' r' hr' hnew
        rw [hrules] at hnew
        simp only [changed, Call.change] at hnew
        split_ifs at hnew with ht
        · subst ht
          rcases List.mem_append.1 hnew with hold | hr''
          · exact absurd hold hr'
          · rw [happ, List.mem_singleton.1 hr'']
        · exact absurd hnew hr'
    | delete =>
      refine iff_of_true ⟨honce.2 ((hd table).erase r), ?_, ?_⟩ ?_
      · intro c hc _
        rw [happ, Option.some.injEq] at hc
        subst hc
        simpa only [hrules, changed, Call.change, if_true] using (hd table).not_mem_erase
      · intro table' r' hr' hnew
        rw [hrules] at hnew
        simp only [changed, Call.change] at hnew
        split_ifs at hnew with ht
        · subst ht
          exact absurd (List.mem_of_mem_erase hnew) hr'
        · exact absurd hnew hr'
      · intro c hc happend
        rw [happ, Option.some.injEq] at hc
        rw [← hc] at happend
        cases happend

/-! ## After a test -/

/-- an addition is about to be made only after a test that did not find its rule -/
theorem callStep_tested {fw fw' : Firewall} {calls calls' : Calls} (h : callStep fw calls = some (calls', fw'))
    {c : Call} (hc : calls'.applied = some c) (happend : c.command = .append) : c.rule ∉ fw'.rules c.table := by
  obtain ⟨_ | ⟨c', cs⟩, _ | status⟩ := calls
  · simp [callStep] at h
  · simp [callStep] at h
  · by_cases hcheck : c'.command = .check
    · simp only [callStep, if_pos hcheck, Option.some.injEq, Prod.mk.injEq] at h
      rw [← h.1] at hc
      cases cs <;> cases hc
    · have hrules := callStep_rules h
      simp only [callStep, if_neg hcheck, Option.some.injEq, Prod.mk.injEq] at h
      rw [← h.1] at hc
      have hcc : c' = c ∧ (system (.rule c'.table .check c'.rule) fw).1 ≠ 0 := by
        cases hcommand : c'.command with
        | check => exact absurd hcommand hcheck
        | append => simpa [Calls.applied, hcommand, and_comm] using hc
        | delete =>
          simp only [Calls.applied, hcommand, Option.ite_none_right_eq_some, Option.some.injEq] at hc
          rw [hc.2, happend] at hcommand
          cases hcommand
      obtain ⟨rfl, hstatus⟩ := hcc
      rw [hrules]
      intro hmem
      exact hstatus (if_pos hmem)
  · simp only [callStep, Option.some.injEq, Prod.mk.injEq] at h
    rw [← h.1] at hc
    cases cs <;> cases hc

theorem CallsStep.tested {calls calls' : Option Calls} {fw fw' : Firewall} (h : CallsStep calls fw calls' fw')
    {c : Call} (hc : calls'.bind Calls.applied = some c) (happend : c.command = .append) :
    c.rule ∉ fw'.rules c.table := by
  cases h with
  | call h => exact callStep_tested h hc happend
  | done h => cases hc
  | other h =>
    rw [h] at hc
    cases hc

theorem applied_eq (t : Threads) (o : ThreadOp) : applied t o = o.thread.bind t.tested := by
  cases o <;> rfl

/-- a step of another thread leaves a thread's calls alone; a request that arrives brings none that have been tested -/
theorem tested_other (t : Threads) (o : ThreadOp) (t' : Threads) (h : threadStep t o = some t') (tid : Tid)
    (hne : o.thread ≠ some tid) : t'.tested tid = t.tested tid := by
  cases tid with
  | handler j =>
    simp only [Threads.tested, Threads.calls]
    rcases handler_other h hne with hsame | ⟨hidle, ⟨isp, hstart⟩ | ⟨ip, hstart⟩⟩
    · rw [hsame]
    · rw [hidle, hstart]
      rfl
    · rw [hidle, hstart]
      rfl
  | mappingCleaner => simp only [Threads.tested, Threads.calls, (cleaner_other h).1 hne]
  | banCleaner => simp only [Threads.tested, Threads.calls, (cleaner_other h).2 hne]

/-- **Right after its test**, a thread that is going to add its rule has not found it there. -/
theorem tested_step {t t' : Threads} {o : ThreadOp} (h : threadStep t o = some t') {tid : Tid}
    (htid : o.thread = some tid) {c : Call} (hc : t'.tested tid = some c) (happend : c.command = .append) :
    c.rule ∉ t'.srv.fw.rules c.table := by
  cases o with
  | handle i rand =>
    obtain ⟨pc, srv, hs, rfl⟩ := threadStep_handle h
    obtain rfl := Option.some.inj htid
    simp only [Threads.tested, Threads.calls, setHandler_self] at hc
    exact (handlerStep_calls hs).tested hc happend
  | cleanMapping =>
    obtain ⟨⟨pc, list, fw⟩, hs, rfl⟩ := Option.map_eq_some_iff.1 h
    obtain rfl := Option.some.inj htid
    exact (cleanerStep_calls hs).tested hc happend
  | cleanBan =>
    obtain ⟨⟨pc, list, fw⟩, hs, rfl⟩ := Option.map_eq_some_iff.1 h
    obtain rfl := Option.some.inj htid
    exact (cleanerStep_calls hs).tested hc happend
  | _ => cases htid

theorem cleanerStep_isSome {α : Type} {time : α → ℤ} {action : α → List Call} {now : ℤ} {list : List α} {fw : Firewall}
    {pc : CleanerPc α} {calls : Calls} (h : pc.calls = some calls) :
    (cleanerStep time action now list fw pc).isSome := by
  cases pc with
  | acting waited popped calls =>
    cases popped with
    | none => cases h
    | some popped =>
      simp only [cleanerStep]
      split <;> rfl
  | _ => cases h

/-- a command that is to be run next can be run -/
theorem applied_isSome {t : Threads} {o : ThreadOp} {c : Call} (h : applied t o = some c) :
    (threadStep t o).isSome := by
  cases o with
  | handle i rand =>
    obtain ⟨calls, hcalls, -⟩ := Option.bind_eq_some_iff.1 h
    have hbusy : t.handler i ≠ .idle := by
      intro hidle
      rw [hidle] at hcalls
      cases hcalls
    obtain ⟨pc, srv, hs⟩ := handlerStep_busy hbusy rand t.srv
    rw [threadStep, Option.isSome_map, hs]
    rfl
  | cleanMapping =>
    obtain ⟨calls, hcalls, -⟩ := Option.bind_eq_some_iff.1 h
    rw [threadStep, Option.isSome_map]
    exact cleanerStep_isSome hcalls
  | cleanBan =>
    obtain ⟨calls, hcalls, -⟩ := Option.bind_eq_some_iff.1 h
    rw [threadStep, Option.isSome_map]
    exact cleanerStep_isSome hcalls
  | _ => cases h

/-! ## Between a test and its addition -/

/-- without duplicates, a rule is there after a step if the step has written it last -/
theorem mem_rules_step {t t' : Threads} {o : ThreadOp} (h : threadStep t o = some t') (hd : NoDuplicates t.srv.fw)
    {table : Table} {r : Rule} : r ∈ t'.srv.fw.rules table ↔ written table t o = some (.add r) ∨
      (written table t o ≠ some (.remove r) ∧ r ∈ t.srv.fw.rules table) := by
  rw [threadStep_rules h, written]
  cases happ : applied t o with
  | none => simp [changed]
  | some c =>
    obtain ⟨table', command, r'⟩ := c
    by_cases ht : table = table'
    · subst ht
      cases command with
      | check => exact absurd rfl (applied_command happ)
      | append =>
        simp only [changed, Call.change, if_true, List.mem_append, List.mem_singleton, Option.some.injEq,
          Edit.add.injEq, ne_eq, reduceCtorEq, not_false_eq_true, true_and]
        rw [or_comm, eq_comm]
      | delete =>
        simp only [changed, Call.change, if_true, Option.some.injEq, reduceCtorEq, Edit.remove.injEq, false_or, ne_eq]
        rw [(hd table).mem_erase_iff, ne_comm]
    · cases command <;> simp [changed, ht]

/-- **A rule that was not there**, without duplicates, is there in the end exactly if an addition of it stands. -/
theorem mem_rules_iff {t t' : Threads} {ops : List ThreadOp} (h : run threadStep t ops = some t')
    (hd : EveryState threadStep (fun t => NoDuplicates t.srv.fw) t ops) {table : Table} {r : Rule}
    (hr : r ∉ t.srv.fw.rules table) :
    r ∈ t'.srv.fw.rules table ↔ Standing r (gather threadStep (writings table) t ops) := by
  induction ops using List.reverseRecOn generalizing t' with
  | nil =>
    obtain rfl := Option.some.inj h
    exact iff_of_false hr (not_standing_nil r)
  | append_singleton ops o ih =>
    rw [run_append, Option.bind_eq_some_iff] at h
    obtain ⟨x, hx, h⟩ := h
    rw [run_cons, Option.bind_eq_some_iff] at h
    obtain ⟨y, hy, hend⟩ := h
    obtain rfl := Option.some.inj hend
    have hd' : EveryState threadStep (fun t => NoDuplicates t.srv.fw) t ops :=
      fun pre hpre => hd pre (hpre.trans (List.prefix_append _ _))
    rw [gather_concat threadStep _ hx hy, writings, standing_append_toList, ← ih hx hd',
      mem_rules_step hy (hd' ops (List.prefix_refl _) x hx)]

/-- at the start of a turn that ends in an addition, the rule is not there -/
theorem turn_tested {t : Threads} {ops : List ThreadOp} {tid : Tid} (u : Turn threadStep ThreadOp.thread tid t ops)
    {c : Call} (hc : applied u.last u.next = some c) (happend : c.command = .append) :
    c.rule ∉ u.after.srv.fw.rules c.table := by
  rw [applied_eq, u.who_next, Option.bind_some, u.kept tested_other] at hc
  exact tested_step u.run_first u.who_first hc happend

/-! ## Runs -/

/-- from any state without duplicates, every step is right exactly when every -A finds its rule absent -/
theorem single_iff_absent {t : Threads} (h : NoDuplicates t.srv.fw) (ops : List ThreadOp) :
    EveryStep threadStep SingleRules t ops ↔ EveryStep threadStep (fun t o _ => AppliesAbsent t o) t ops := by
  refine everyStep_iff threadStep (I := fun t => NoDuplicates t.srv.fw) ?_ h ops
  intro t o t' hd hs
  exact ⟨single_step hd hs, fun hg => hg.once⟩

theorem noDuplicates_of_single {t : Threads} (h : NoDuplicates t.srv.fw) {ops : List ThreadOp}
    (hsingle : EveryStep threadStep SingleRules t ops) :
    EveryState threadStep (fun t => NoDuplicates t.srv.fw) t ops :=
  EveryStep.everyState (P := fun t => NoDuplicates t.srv.fw) (fun _ _ _ hs => SingleRules.once hs) h hsingle

/-- **Rules are single exactly when tests hold.** In every interleaving of the threads, from any state without duplicates
in which no thread is between a test and its command: after every step no table holds a rule twice, a deleted rule is
absent and comes back only by an addition, if and only if no other thread's addition of a rule stands between a
thread's test for it and the addition that follows. -/
theorem rules_single_iff {t : Threads} (h : NoDuplicates t.srv.fw) (hnone : ∀ tid, t.tested tid = none)
    (ops : List ThreadOp) : EveryStep threadStep SingleRules t ops ↔ TestsHold t ops := by
  refine ⟨?_, ?_⟩
  · intro hsingle tid u c hc happend
    have hpast : EveryState threadStep (fun t => NoDuplicates t.srv.fw) t u.past :=
      fun pre hpre => noDuplicates_of_single h hsingle pre (hpre.trans u.past_prefix_ops)
    -- the addition finds its rule absent, so that none stands
    obtain ⟨y, hy⟩ := Option.isSome_iff_exists.1 (applied_isSome hc)
    have habsent := (single_iff_absent h ops).1 hsingle u.past u.next u.past_prefix u.last y u.run_past hy c hc happend
    rwa [mem_rules_iff u.run_mid (u.everyState_mid hpast) (turn_tested u hc happend)] at habsent
  · intro hhold
    suffices hall : ∀ pre, pre <+: ops → EveryStep threadStep SingleRules t pre from hall ops (List.prefix_refl ops)
    intro pre hpre
    induction pre using List.reverseRecOn with
    | nil => exact everyStep_nil threadStep SingleRules t
    | append_singleton pre o ih =>
      have hsingle := ih ((List.prefix_append pre [o]).trans hpre)
      have hd := noDuplicates_of_single h hsingle
      refine (everyStep_concat threadStep SingleRules t pre o).2 ⟨hsingle, ?_⟩
      intro z z' hz hstep
      refine (single_step (hd pre (List.prefix_refl pre) z hz) hstep).2 ?_
      intro c hc happend
      -- its thread was not past a test at the start
      obtain ⟨tid, htid, hdue⟩ := Option.bind_eq_some_iff.1 (applied_eq z o ▸ hc)
      have hne : z.tested tid ≠ t.tested tid := by simp [hdue, hnone tid]
      obtain ⟨u, rfl, rfl, rfl, -⟩ := exists_turn tested_other hpre hz htid hne
      rw [mem_rules_iff u.run_mid (u.everyState_mid hd) (turn_tested u hc happend)]
      exact hhold tid u c hc happend

theorem bootThreads_noDuplicates : NoDuplicates bootThreads.srv.fw := by
  intro table
  cases table <;> decide

theorem bootThreads_tested (tid : Tid) : bootThreads.tested tid = none := by
  cases tid <;> rfl

instance (t : Threads) (o : ThreadOp) : Decidable (AppliesAbsent t o) :=
  decidable_of_iff (∀ c ∈ applied t o, c.command = .append → c.rule ∉ t.srv.fw.rules c.table) Iff.rfl

/-- two handlers ban one address and a third one another; the second tests after the first has added. The first ban
expires while a fourth handler bans the address again, which adds the rule that has just been deleted -/
def orderlyBans : List ThreadOp :=
  [.recvBan 0 clientA, .recvBan 1 clientA, .recvBan 2 clientB, .handle 0 0, .handle 2 0, .handle 0 0, .handle 1 0,
    .handle 2 0, .handle 1 0] ++ List.replicate 4 (.handle 0 0) ++ [.wait 7] ++ List.replicate 6 .cleanBan ++
    [.recvBan 3 clientA, .handle 3 0, .handle 3 0]

theorem rules_single_iff_bans : TestsHold bootThreads orderlyBans ∧
    ∃ t, run threadStep bootThreads orderlyBans = some t ∧ t.srv.fw.filter.count (.drop clientA) = 1 := by
  have habsent : EveryStep threadStep (fun t o _ => AppliesAbsent t o) bootThreads orderlyBans := by decide +kernel
  refine ⟨(rules_single_iff bootThreads_noDuplicates bootThreads_tested orderlyBans).1 ?_, _, rfl, by decide +kernel⟩
  exact (single_iff_absent bootThreads_noDuplicates orderlyBans).2 habsent

/-- two handlers ban one address: both test, both add, both finish; the first of the two bans is over -/
def doubleBan : List ThreadOp :=
  [.recvBan 0 clientA, .recvBan 1 clientA, .handle 0 0, .handle 1 0, .handle 0 0, .handle 1 0] ++
    List.replicate 4 (.handle 0 0) ++ List.replicate 4 (.handle 1 0) ++ [.wait 7] ++ List.replicate 5 .cleanBan

/-- **Two bans of one address add its rule twice.** The deletion that follows leaves the rule in the table. -/
theorem two_bans_duplicate : NoDuplicates bootThreads.srv.fw ∧
    (∃ t, run threadStep bootThreads (doubleBan.take 6) = some t ∧ t.srv.fw.filter.count (.drop clientA) = 2) ∧
    (∃ t, run threadStep bootThreads doubleBan = some t ∧ ∃ t', threadStep t .cleanBan = some t' ∧
      applied t .cleanBan = some ⟨.filter, .delete, .drop clientA⟩ ∧ Rule.drop clientA ∈ t'.srv.fw.filter) ∧
    ¬ EveryStep threadStep SingleRules bootThreads (doubleBan ++ [.cleanBan]) := by
  refine ⟨bootThreads_noDuplicates, ⟨_, rfl, by decide⟩, ⟨_, rfl, _, rfl, by decide, by decide⟩, ?_⟩
  intro h
  obtain ⟨t, ht, t', ht', hbad⟩ : ∃ t, run threadStep bootThreads (doubleBan.take 5) = some t ∧
      ∃ t', threadStep t (.handle 1 0) = some t' ∧ ¬ t'.srv.fw.filter.Nodup :=
    ⟨_, rfl, _, rfl, by decide⟩
  exact hbad ((h _ _ (by decide) t t' ht ht').once .filter)

end NetSec.NatServer
