/-
The NAT server as threads: one handler for each connection and the two cleaners, interleaved step by step.

A handler's program counter `Pc` says what it does next and carries its local variables; a cleaner's is `CleanerPc`.
The steps are the source's: each reading of the clock, each locked search, the `rand` draw, the test and the command of
each `checkAddRule` call, the locked insertion, the ACK. What is locked is one step, everything else can be
interleaved with the steps of all other threads, and the clock may move between any two steps. Handlers are numbered;
any number of them may be busy. A mapping found is carried by value.

A call of `checkAddRule` is data (`Call`), so that its test and its command can be two steps (`callStep`).

- `callStep_alone`, `makeCalls`: undisturbed, the two steps are `checkAddRule`;
- `step_alone`: whatever the one-at-a-time server does in one step, the threads can do in a few steps;
- `run_alone`: so every run of the one-at-a-time server is a run of the threads.
-/
import NetSec.NatServer.Server

namespace NetSec.NatServer

open NetSec.Run

/-! ## Calls of checkAddRule -/

structure Call where
  table : Table
  command : Action
  rule : Rule
deriving DecidableEq, Repr

/-- the calls still to be made, and the exit status of the first one's test once it has run -/
structure Calls where
  pending : List Call
  status : Option ℕ
deriving DecidableEq, Repr

/-- the test of the first call, or what the call does after it; `none` when no call is left -/
def callStep (fw : Firewall) : Calls → Option (Calls × Firewall)
  | ⟨[], _⟩ => none
  | ⟨c :: cs, none⟩ =>
    if c.command = .check then some (⟨cs, none⟩, fw)
    else
      let (status, fw) := system (.rule c.table .check c.rule) fw
      some (⟨c :: cs, some status⟩, fw)
  | ⟨c :: cs, some status⟩ =>
    let applies : Bool := match c.command with
      | .append => status ≠ 0
      | .delete => status = 0
      | .check => false
    some (⟨cs, none⟩, if applies then (system (.rule c.table c.command c.rule) fw).2 else fw)

/-- the calls one after the other, undisturbed -/
def makeCalls (calls : List Call) (fw : Firewall) : Firewall :=
  calls.foldl (fun fw c => checkAddRule c.table c.command c.rule fw) fw

def mappingCalls (isp pub : Text) : List Call := [⟨.nat, .append, .dnat isp pub⟩, ⟨.nat, .append, .snat isp pub⟩]

def banCalls (ip : Text) : List Call := [⟨.filter, .append, .drop ip⟩]

def expiredMapCalls (m : Mapping) : List Call :=
  [⟨.nat, .append, .dnatEstablished m.ispPrefix m.publicIP⟩, ⟨.nat, .append, .snatEstablished m.ispPrefix m.publicIP⟩,
    ⟨.nat, .delete, .dnat m.ispPrefix m.publicIP⟩, ⟨.nat, .delete, .snat m.ispPrefix m.publicIP⟩]

def expiredBanCalls (b : Ban) : List Call := [⟨.filter, .delete, .drop b.ispPrefix⟩]

@[simp] theorem makeCalls_nil (fw : Firewall) : makeCalls [] fw = fw := rfl

@[simp] theorem makeCalls_cons (c : Call) (cs : List Call) (fw : Firewall) :
    makeCalls (c :: cs) fw = makeCalls cs (checkAddRule c.table c.command c.rule fw) := rfl

theorem makeCalls_mapping (isp pub : Text) (t : ℤ) (s : Server) :
    makeCalls (mappingCalls isp pub) s.fw = (install isp pub t s).fw := by
  simp only [mappingCalls, makeCalls_cons, makeCalls_nil, install]

theorem makeCalls_expiredMap (m : Mapping) (fw : Firewall) :
    makeCalls (expiredMapCalls m) fw = handleExpiredMap m fw := by
  simp only [expiredMapCalls, makeCalls_cons, makeCalls_nil, handleExpiredMap]

theorem makeCalls_expiredBan (b : Ban) (fw : Firewall) : makeCalls (expiredBanCalls b) fw = handleExpiredBan b fw := by
  simp only [expiredBanCalls, makeCalls_cons, makeCalls_nil, handleExpiredBan]

/-- undisturbed, the test and what follows it are `checkAddRule` -/
theorem callStep_alone (c : Call) (cs : List Call) (fw : Firewall) :
    callStep fw ⟨c :: cs, none⟩ = some (⟨cs, none⟩, checkAddRule c.table c.command c.rule fw) ∨
      ∃ status fw', callStep fw ⟨c :: cs, none⟩ = some (⟨c :: cs, some status⟩, fw') ∧
        callStep fw' ⟨c :: cs, some status⟩ = some (⟨cs, none⟩, checkAddRule c.table c.command c.rule fw) := by
  obtain ⟨table, command, rule⟩ := c
  cases command with
  | check => exact Or.inl rfl
  | append =>
    refine Or.inr ⟨_, _, rfl, ?_⟩
    by_cases h : rule ∈ fw.rules table <;> simp [callStep, checkAddRule, system, h]
  | delete =>
    refine Or.inr ⟨_, _, rfl, ?_⟩
    by_cases h : rule ∈ fw.rules table <;> simp [callStep, checkAddRule, system, h]

/-- **Undisturbed calls.** A machine whose operation `o` makes the steps of the calls makes all of them. -/
theorem reaches_makeCalls {σ ι : Type*} (step : σ → ι → Option σ) (o : ι) (f : Calls → Firewall → σ)
    (hf : ∀ calls fw calls' fw', callStep fw calls = some (calls', fw') → step (f calls fw) o = some (f calls' fw'))
    (calls : List Call) (fw : Firewall) : Reaches step (f ⟨calls, none⟩ fw) (f ⟨[], none⟩ (makeCalls calls fw)) := by
  induction calls generalizing fw with
  | nil => exact Reaches.refl step _
  | cons c cs ih =>
    have hrest := ih (checkAddRule c.table c.command c.rule fw)
    rcases callStep_alone c cs fw with h | ⟨status, fw', h1, h2⟩
    · exact hrest.after (hf _ _ _ _ h)
    · exact (hrest.after (hf _ _ _ _ h2)).after (hf _ _ _ _ h1)

/-- calls at any point, undisturbed -/
theorem reaches_callsDone {σ ι : Type*} (step : σ → ι → Option σ) (o : ι) (f : Calls → Firewall → σ)
    (hf : ∀ calls fw calls' fw', callStep fw calls = some (calls', fw') → step (f calls fw) o = some (f calls' fw'))
    (calls : Calls) (fw : Firewall) : ∃ status fw', Reaches step (f calls fw) (f ⟨[], status⟩ fw') := by
  obtain ⟨pending, status⟩ := calls
  cases status with
  | none => exact ⟨none, _, reaches_makeCalls step o f hf pending fw⟩
  | some status =>
    cases pending with
    | nil => exact ⟨some status, fw, Reaches.refl step _⟩
    | cons c cs => exact ⟨none, _, (reaches_makeCalls step o f hf cs _).after (hf _ _ _ _ rfl)⟩

/-! ## Threads -/

/-- what a handler does next, with its local variables -/
inductive Pc where
  | idle
  /-- ADD: read the clock for the search -/
  | addStart (isp : Text)
  /-- ADD: search by prefix; `t0` is the clock then -/
  | addSearch (isp : Text) (t0 : ℤ)
  /-- ADD: read the clock and test the match -/
  | addTest (isp : Text) (t0 : ℤ) (m : Mapping)
  /-- ADD: draw an address -/
  | addDraw (isp : Text) (t0 : ℤ)
  /-- ADD: search for the address -/
  | addProbe (isp : Text) (t0 : ℤ) (pub : Text)
  | addRules (isp pub : Text) (calls : Calls)
  /-- ADD: read the clock for the new mapping -/
  | addStamp (isp pub : Text)
  | addInsert (map : Mapping)
  | addReply (isp : Text) (sm : SuccessMapping)
  | banRules (ip : Text) (calls : Calls)
  | banStamp (ip : Text)
  | banInsert (map : Ban)
  | banReply (ip : Text)
deriving DecidableEq, Repr

/-- what a cleaner does next -/
inductive CleanerPc (α : Type) where
  /-- look whether the list has a head -/
  | top
  /-- read the expiration time of the head -/
  | headSeen
  /-- read the clock, and sleep again if the time has not come -/
  | waiting (elm : α)
  | popping (elm : α)
  /-- run the expiration action of the popped element (NULL: `none`) -/
  | acting (waited : α) (popped : Option α) (calls : Calls)
deriving DecidableEq, Repr

structure Threads where
  /-- what the threads share: the clock, the firewall, the two lists; and the ACKs sent -/
  srv : Server
  handler : ℕ → Pc
  mappingCleaner : CleanerPc Mapping
  banCleaner : CleanerPc Ban

def Threads.setHandler (t : Threads) (i : ℕ) (pc : Pc) (srv : Server) : Threads :=
  { t with srv := srv, handler := Function.update t.handler i pc }

inductive ThreadOp where
  | wait (d : ℕ)
  /-- handler `i` gets an ADD or BAN request -/
  | recvAdd (i : ℕ) (ip : Text) (uninit : List ℤ)
  | recvBan (i : ℕ) (ip : Text)
  /-- handler `i` takes its next step; `rand` is what rand() returns should it be called -/
  | handle (i : ℕ) (rand : ℕ)
  | cleanMapping
  | cleanBan
deriving DecidableEq, Repr

inductive Tid where
  | handler (i : ℕ)
  | mappingCleaner
  | banCleaner
deriving DecidableEq, Repr

inductive ListId where
  | mapping
  | banned
deriving DecidableEq, Repr

/-- whose step it is; the clock and the arrival of a request are nobody's -/
def ThreadOp.thread : ThreadOp → Option Tid
  | .handle i _ => some (.handler i)
  | .cleanMapping => some .mappingCleaner
  | .cleanBan => some .banCleaner
  | _ => none

/-- one step of a handler -/
def handlerStep (rand : ℕ) (s : Server) : Pc → Option (Pc × Server)
  | .idle => none
  | .addStart isp => some (.addSearch isp s.now, s)
  | .addSearch isp t0 =>
    match findElement cmpMaps ⟨t0 - expirationTimeSeconds, some isp, none⟩ s.mappingList with
    | none => some (.addDraw isp t0, s)
    | some m => some (.addTest isp t0 m, s)
  | .addTest isp t0 m =>
    if s.now - m.time < expirationTimeSeconds then
      some (.addReply isp ⟨m.publicIP, expirationTimeSeconds - (s.now - m.time)⟩, s)
    else some (.addDraw isp t0, s)
  | .addDraw isp t0 => some (.addProbe isp t0 (fluxAddress rand), s)
  | .addProbe isp t0 pub =>
    match findElement cmpMaps ⟨t0 - expirationTimeSeconds, none, some pub⟩ s.mappingList with
    | some _ => some (.addDraw isp t0, s)
    | none => some (.addRules isp pub ⟨mappingCalls isp pub, none⟩, s)
  | .addRules isp pub calls =>
    match callStep s.fw calls with
    | some (calls, fw) => some (.addRules isp pub calls, { s with fw := fw })
    | none => some (.addStamp isp pub, s)
  | .addStamp isp pub => some (.addInsert ⟨s.now, isp, pub⟩, s)
  | .addInsert map =>
    some (.addReply map.ispPrefix ⟨map.publicIP, expirationTimeSeconds⟩,
      { s with mappingList := s.mappingList ++ [map] })
  | .addReply isp sm => some (.idle, { s with acks := s.acks ++ [.lease isp sm.mappedIP sm.mapTTL s.now] })
  | .banRules ip calls =>
    match callStep s.fw calls with
    | some (calls, fw) => some (.banRules ip calls, { s with fw := fw })
    | none => some (.banStamp ip, s)
  | .banStamp ip => some (.banInsert ⟨s.now, ip⟩, s)
  | .banInsert map => some (.banReply map.ispPrefix, { s with bannedList := s.bannedList ++ [map] })
  | .banReply ip =>
    some (.idle, { s with acks := s.acks ++ [.ban ip (expirationTimeSeconds + gracePeriodSeconds) s.now] })

/-- the head and the list without it -/
def popElement {α : Type} : List α → Option α × List α
  | [] => (none, [])
  | elm :: rest => (some elm, rest)

/-- one step of removeExpiredMappings, over the element type and what differs between the two cleaners; `none` at a
NULL pointer -/
def cleanerStep {α : Type} (time : α → ℤ) (action : α → List Call) (now : ℤ) (list : List α) (fw : Firewall) :
    CleanerPc α → Option (CleanerPc α × List α × Firewall)
  | .top => some (if list.isEmpty then .top else .headSeen, list, fw)
  | .headSeen => list.head?.map fun elm => (.waiting elm, list, fw)
  | .waiting elm => some (if now < getExpirationTimeMap (time elm) then .waiting elm else .popping elm, list, fw)
  | .popping elm =>
    let (popped, rest) := popElement list
    some (.acting elm popped ⟨(popped.map action).getD [], none⟩, rest, fw)
  | .acting _ none _ => none
  | .acting waited (some popped) calls =>
    match callStep fw calls with
    | some (calls, fw) => some (.acting waited (some popped) calls, list, fw)
    | none => some (.top, list, fw)

def threadStep (t : Threads) : ThreadOp → Option Threads
  | .wait d => some { t with srv := { t.srv with now := t.srv.now + d } }
  | .recvAdd i ip uninit =>
    if t.handler i = .idle then
      some (t.setHandler i (.addStart (ispPrefix uninit ip)) t.srv)
    else none
  | .recvBan i ip =>
    if t.handler i = .idle then
      some (t.setHandler i (.banRules ip ⟨banCalls ip, none⟩) t.srv)
    else none
  | .handle i rand =>
    (handlerStep rand t.srv (t.handler i)).map fun (pc, srv) => t.setHandler i pc srv
  | .cleanMapping =>
    (cleanerStep Mapping.time expiredMapCalls t.srv.now t.srv.mappingList t.srv.fw t.mappingCleaner).map
      fun (pc, list, fw) => { t with srv := { t.srv with mappingList := list, fw := fw }, mappingCleaner := pc }
  | .cleanBan =>
    (cleanerStep Ban.time expiredBanCalls t.srv.now t.srv.bannedList t.srv.fw t.banCleaner).map
      fun (pc, list, fw) => { t with srv := { t.srv with bannedList := list, fw := fw }, banCleaner := pc }

/-- every thread is between two requests or two rounds -/
structure Quiet (t : Threads) : Prop where
  handlers : ∀ i, t.handler i = .idle
  mappingCleaner : t.mappingCleaner = .top
  banCleaner : t.banCleaner = .top

@[simp] theorem setHandler_srv (t : Threads) (i : ℕ) (pc : Pc) (srv : Server) : (t.setHandler i pc srv).srv = srv := rfl

@[simp] theorem setHandler_self (t : Threads) (i : ℕ) (pc : Pc) (srv : Server) :
    (t.setHandler i pc srv).handler i = pc := Function.update_self _ _ _

@[simp] theorem setHandler_setHandler (t : Threads) (i : ℕ) (pc pc' : Pc) (srv srv' : Server) :
    (t.setHandler i pc srv).setHandler i pc' srv' = t.setHandler i pc' srv' := by
  simp [Threads.setHandler]

theorem setHandler_other (t : Threads) {i j : ℕ} (hij : j ≠ i) (pc : Pc) (srv : Server) :
    (t.setHandler i pc srv).handler j = t.handler j := Function.update_of_ne hij _ _

theorem setHandler_eq (t : Threads) (i : ℕ) : t.setHandler i (t.handler i) t.srv = t := by
  simp only [Threads.setHandler, Function.update_eq_self]

/-- a handler that is idle again -/
theorem setHandler_idle {t : Threads} {i : ℕ} (h : t.handler i = .idle) (srv : Server) :
    t.setHandler i .idle srv = { t with srv := srv } := by
  simp only [Threads.setHandler, ← h, Function.update_eq_self]

/-! ## What each step does -/

theorem threadStep_handle {t t' : Threads} {i rand : ℕ} (h : threadStep t (.handle i rand) = some t') :
    ∃ pc srv, handlerStep rand t.srv (t.handler i) = some (pc, srv) ∧
      t' = t.setHandler i pc srv := by
  simp only [threadStep, Option.map_eq_some_iff] at h
  obtain ⟨⟨pc, srv⟩, hs, rfl⟩ := h
  exact ⟨pc, srv, hs, rfl⟩

/-- a busy handler has a next step -/
theorem handlerStep_busy {pc : Pc} (h : pc ≠ .idle) (rand : ℕ) (s : Server) :
    ∃ pc' s', handlerStep rand s pc = some (pc', s') := by
  cases pc with
  | idle => exact absurd rfl h
  | _ =>
    simp only [handlerStep]
    (try split) <;> exact ⟨_, _, rfl⟩

theorem threadStep_recvAdd {t t' : Threads} {i : ℕ} {ip : Text} {uninit : List ℤ}
    (h : threadStep t (.recvAdd i ip uninit) = some t') :
    t.handler i = .idle ∧ t' = t.setHandler i (.addStart (ispPrefix uninit ip)) t.srv := by
  simp only [threadStep] at h
  split_ifs at h with hi
  exact ⟨hi, (Option.some.inj h).symm⟩

theorem threadStep_recvBan {t t' : Threads} {i : ℕ} {ip : Text} (h : threadStep t (.recvBan i ip) = some t') :
    t.handler i = .idle ∧ t' = t.setHandler i (.banRules ip ⟨banCalls ip, none⟩) t.srv := by
  simp only [threadStep] at h
  split_ifs at h with hi
  exact ⟨hi, (Option.some.inj h).symm⟩

/-- a cleaner changes its list at most by taking the head off -/
theorem cleanerStep_list {α : Type} {time : α → ℤ} {action : α → List Call} {now : ℤ} {list list' : List α}
    {fw fw' : Firewall} {pc pc' : CleanerPc α}
    (h : cleanerStep time action now list fw pc = some (pc', list', fw')) : list' = list ∨ list' = list.tail := by
  cases pc with
  | top => simp only [cleanerStep, Option.some.injEq, Prod.mk.injEq] at h; exact Or.inl h.2.1.symm
  | headSeen =>
    simp only [cleanerStep, Option.map_eq_some_iff, Prod.mk.injEq] at h
    obtain ⟨_, -, -, h, -⟩ := h
    exact Or.inl h.symm
  | waiting elm => simp only [cleanerStep, Option.some.injEq, Prod.mk.injEq] at h; exact Or.inl h.2.1.symm
  | popping elm =>
    simp only [cleanerStep, Option.some.injEq, Prod.mk.injEq] at h
    right
    rw [← h.2.1]
    cases list <;> rfl
  | acting waited popped calls =>
    cases popped with
    | none => simp [cleanerStep] at h
    | some popped =>
      simp only [cleanerStep] at h
      split at h <;> simp only [Option.some.injEq, Prod.mk.injEq] at h <;> exact Or.inl h.2.1.symm

theorem threadStep_cleanMapping {t t' : Threads} (h : threadStep t .cleanMapping = some t') :
    t'.srv.now = t.srv.now ∧ t'.handler = t.handler ∧
      (t'.srv.mappingList = t.srv.mappingList ∨ t'.srv.mappingList = t.srv.mappingList.tail) := by
  simp only [threadStep, Option.map_eq_some_iff] at h
  obtain ⟨⟨pc, list, fw⟩, hs, rfl⟩ := h
  exact ⟨rfl, rfl, cleanerStep_list hs⟩

theorem threadStep_cleanBan {t t' : Threads} (h : threadStep t .cleanBan = some t') :
    t'.srv.now = t.srv.now ∧ t'.handler = t.handler ∧ t'.srv.mappingList = t.srv.mappingList := by
  simp only [threadStep, Option.map_eq_some_iff] at h
  obtain ⟨⟨pc, list, fw⟩, hs, rfl⟩ := h
  exact ⟨rfl, rfl, rfl⟩

/-- a step of another thread leaves a handler where it is; a request makes an idle one begin -/
theorem handler_other {t t' : Threads} {o : ThreadOp} (h : threadStep t o = some t') {j : ℕ}
    (hne : o.thread ≠ some (.handler j)) : t'.handler j = t.handler j ∨ (t.handler j = .idle ∧
      ((∃ isp, t'.handler j = .addStart isp) ∨ ∃ ip, t'.handler j = .banRules ip ⟨banCalls ip, none⟩)) := by
  cases o with
  | wait d =>
    obtain rfl := Option.some.inj h
    exact Or.inl rfl
  | recvAdd i ip uninit =>
    obtain ⟨hidle, rfl⟩ := threadStep_recvAdd h
    by_cases hj : j = i
    · subst hj
      exact Or.inr ⟨hidle, Or.inl ⟨_, setHandler_self t j _ _⟩⟩
    · exact Or.inl (setHandler_other t hj _ _)
  | recvBan i ip =>
    obtain ⟨hidle, rfl⟩ := threadStep_recvBan h
    by_cases hj : j = i
    · subst hj
      exact Or.inr ⟨hidle, Or.inr ⟨_, setHandler_self t j _ _⟩⟩
    · exact Or.inl (setHandler_other t hj _ _)
  | handle i rand =>
    obtain ⟨pc, srv, -, rfl⟩ := threadStep_handle h
    have hj : j ≠ i := by
      rintro rfl
      exact hne rfl
    exact Or.inl (setHandler_other t hj _ _)
  | cleanMapping =>
    obtain ⟨-, hhandler, -⟩ := threadStep_cleanMapping h
    exact Or.inl (congrFun hhandler j)
  | cleanBan =>
    obtain ⟨-, hhandler, -⟩ := threadStep_cleanBan h
    exact Or.inl (congrFun hhandler j)

/-- a step of another thread leaves a cleaner where it is -/
theorem cleaner_other {t t' : Threads} {o : ThreadOp} (h : threadStep t o = some t') :
    (o.thread ≠ some .mappingCleaner → t'.mappingCleaner = t.mappingCleaner) ∧
      (o.thread ≠ some .banCleaner → t'.banCleaner = t.banCleaner) := by
  cases o with
  | wait d =>
    obtain rfl := Option.some.inj h
    exact ⟨fun _ => rfl, fun _ => rfl⟩
  | recvAdd i ip uninit =>
    obtain ⟨-, rfl⟩ := threadStep_recvAdd h
    exact ⟨fun _ => rfl, fun _ => rfl⟩
  | recvBan i ip =>
    obtain ⟨-, rfl⟩ := threadStep_recvBan h
    exact ⟨fun _ => rfl, fun _ => rfl⟩
  | handle i rand =>
    obtain ⟨pc, srv, -, rfl⟩ := threadStep_handle h
    exact ⟨fun _ => rfl, fun _ => rfl⟩
  | cleanMapping =>
    obtain ⟨⟨pc, list, fw⟩, -, rfl⟩ := Option.map_eq_some_iff.1 h
    exact ⟨fun hne => absurd rfl hne, fun _ => rfl⟩
  | cleanBan =>
    obtain ⟨⟨pc, list, fw⟩, -, rfl⟩ := Option.map_eq_some_iff.1 h
    exact ⟨fun _ => rfl, fun hne => absurd rfl hne⟩

/-! ## One at a time -/

theorem reaches_handle {t : Threads} {i : ℕ} {pc pc' : Pc} {s s' : Server} (rand : ℕ)
    (h : handlerStep rand s pc = some (pc', s')) :
    Reaches threadStep (t.setHandler i pc s) (t.setHandler i pc' s') :=
  reaches_of_step (o := .handle i rand) (by simp [threadStep, h])

theorem reaches_wait (t : Threads) (i : ℕ) (pc : Pc) (s : Server) (d : ℕ) :
    Reaches threadStep (t.setHandler i pc s) (t.setHandler i pc { s with now := s.now + d }) :=
  reaches_of_step (o := .wait d) rfl

/-- the retry loop, undisturbed -/
theorem reaches_draws (t : Threads) (i : ℕ) (isp : Text) {pub : Text} {t0 now' : ℤ} {draws : List Draw} {s : Server}
    (h : drawAddress s.mappingList (t0 - expirationTimeSeconds) s.now draws = some (pub, now')) :
    Reaches threadStep (t.setHandler i (.addDraw isp t0) s)
      (t.setHandler i (.addRules isp pub ⟨mappingCalls isp pub, none⟩) { s with now := now' }) := by
  induction draws generalizing s with
  | nil => simp [drawAddress] at h
  | cons d draws ih =>
    simp only [drawAddress] at h
    refine (reaches_wait t i _ s d.wait).trans ((reaches_handle d.rand rfl).trans ?_)
    split at h
    · rename_i m hm
      exact (reaches_handle 0 (by simp only [handlerStep, hm])).trans (ih (s := { s with now := s.now + d.wait }) h)
    · rename_i hnone
      split_ifs at h with hd
      simp only [Option.some.injEq, Prod.mk.injEq] at h
      obtain ⟨rfl, rfl⟩ := h
      exact reaches_handle 0 (by simp only [handlerStep, hnone])

/-- the search for a running lease, undisturbed -/
theorem reaches_runningLease {t : Threads} {i : ℕ} {isp : Text} {e : AddEnv} {s : Server} {m : Option Mapping} {now : ℤ}
    (h : runningLease isp e s = (m, now)) :
    Reaches threadStep (t.setHandler i (.addStart isp) s)
      (t.setHandler i (m.elim (.addDraw isp (s.now + e.waitSearch)) fun m =>
        .addReply isp ⟨m.publicIP, expirationTimeSeconds - (now - m.time)⟩) { s with now := now }) := by
  simp only [runningLease] at h
  refine (reaches_wait t i _ s e.waitSearch).trans ((reaches_handle 0 rfl).trans ?_)
  split at h
  · rename_i hnone
    simp only [Prod.mk.injEq] at h
    obtain ⟨rfl, rfl⟩ := h
    exact reaches_handle 0 (by simp only [handlerStep, hnone, Option.elim_none])
  · rename_i m' hm
    simp only [Prod.mk.injEq] at h
    obtain ⟨rfl, rfl⟩ := h
    have hfound : handlerStep 0 { s with now := s.now + e.waitSearch } (.addSearch isp (s.now + e.waitSearch)) =
        some (.addTest isp (s.now + e.waitSearch) m', { s with now := s.now + e.waitSearch }) := by
      simp only [handlerStep, hm]
    refine (reaches_handle 0 hfound).trans ((reaches_wait t i _ _ e.waitTest).trans (reaches_handle 0 ?_))
    split_ifs with hf <;> simp only [handlerStep, hf, if_true, if_false, Option.elim_none, Option.elim_some]

/-- at `pc calls` a handler makes its calls, and then goes on to `next` -/
def MakesCalls (pc : Calls → Pc) (next : Pc) : Prop :=
  ∀ rand s calls, handlerStep rand s (pc calls) =
    match callStep s.fw calls with
    | some (calls, fw) => some (pc calls, { s with fw := fw })
    | none => some (next, s)

theorem addRules_makesCalls (isp pub : Text) : MakesCalls (.addRules isp pub) (.addStamp isp pub) := fun _ _ _ => rfl

theorem banRules_makesCalls (ip : Text) : MakesCalls (.banRules ip) (.banStamp ip) := fun _ _ _ => rfl

theorem MakesCalls.step {pc : Calls → Pc} {next : Pc} (h : MakesCalls pc next) (t : Threads) (i : ℕ) (s : Server)
    (calls : Calls) (fw : Firewall) (calls' : Calls) (fw' : Firewall) (hcall : callStep fw calls = some (calls', fw')) :
    threadStep (t.setHandler i (pc calls) { s with fw := fw }) (.handle i 0) =
      some (t.setHandler i (pc calls') { s with fw := fw' }) := by
  simp [threadStep, h 0, hcall]

/-- the calls of a handler, undisturbed -/
theorem reaches_rules {pc : Calls → Pc} {next : Pc} (h : MakesCalls pc next) (t : Threads) (i : ℕ) (calls : List Call)
    (s : Server) : Reaches threadStep (t.setHandler i (pc ⟨calls, none⟩) s)
      (t.setHandler i next { s with fw := makeCalls calls s.fw }) :=
  (reaches_makeCalls threadStep (.handle i 0) (fun calls fw => t.setHandler i (pc calls) { s with fw := fw })
    (h.step t i s) calls s.fw).trans (reaches_handle 0 (h 0 _ _))

/-- and from wherever they are -/
theorem reaches_rulesDone {pc : Calls → Pc} {next : Pc} (h : MakesCalls pc next) (t : Threads) (i : ℕ) (calls : Calls)
    (s : Server) : ∃ fw, Reaches threadStep (t.setHandler i (pc calls) s) (t.setHandler i next { s with fw := fw }) := by
  obtain ⟨status, fw, hdone⟩ := reaches_callsDone threadStep (.handle i 0)
    (fun calls fw => t.setHandler i (pc calls) { s with fw := fw }) (h.step t i s) calls s.fw
  exact ⟨fw, hdone.trans (reaches_handle 0 (h 0 _ _))⟩

/-- an installation, undisturbed, from the rules to the ACK -/
theorem reaches_install (t : Threads) (i : ℕ) (isp pub : Text) (s : Server) (d : ℕ) :
    Reaches threadStep (t.setHandler i (.addRules isp pub ⟨mappingCalls isp pub, none⟩) s)
      (t.setHandler i .idle { install isp pub (s.now + d) s with
        acks := s.acks ++ [.lease isp pub expirationTimeSeconds (s.now + d)] }) := by
  have hfw := makeCalls_mapping isp pub (s.now + d) s
  calc Reaches threadStep (t.setHandler i (.addRules isp pub ⟨mappingCalls isp pub, none⟩) s)
        (t.setHandler i (.addStamp isp pub) { s with fw := makeCalls (mappingCalls isp pub) s.fw }) :=
          reaches_rules (addRules_makesCalls isp pub) t i (mappingCalls isp pub) s
    Reaches threadStep _ (t.setHandler i (.addStamp isp pub)
        { s with now := s.now + d, fw := makeCalls (mappingCalls isp pub) s.fw }) := reaches_wait t i _ _ d
    Reaches threadStep _ (t.setHandler i (.addReply isp ⟨pub, expirationTimeSeconds⟩)
        (install isp pub (s.now + d) s)) := by
          rw [hfw]
          exact (reaches_handle 0 rfl).trans (reaches_handle 0 rfl)
    Reaches threadStep _ _ := reaches_handle 0 rfl

theorem add_alone {s s' : Server} {ip : Text} {e : AddEnv} (h : step s (.add ip e) = some s') (t : Threads) (i : ℕ) :
    Reaches threadStep (t.setHandler i (.addStart (ispPrefix e.uninit ip)) s) (t.setHandler i .idle s') := by
  rcases step_add h with ⟨m, hrun, -, ht⟩ | ⟨pub, now, now', hrun, hdraw, rfl⟩
  · rw [ht]
    exact (reaches_runningLease hrun).trans (reaches_handle 0 rfl)
  · calc Reaches threadStep (t.setHandler i (.addStart (ispPrefix e.uninit ip)) s)
          (t.setHandler i (.addDraw (ispPrefix e.uninit ip) (s.now + e.waitSearch)) { s with now := now }) :=
            reaches_runningLease hrun
      Reaches threadStep _ (t.setHandler i (.addRules (ispPrefix e.uninit ip) pub
          ⟨mappingCalls (ispPrefix e.uninit ip) pub, none⟩) { s with now := now' }) :=
            reaches_draws t i _ (s := { s with now := now }) hdraw
      Reaches threadStep _ _ := reaches_install t i _ pub { s with now := now' } e.waitStamp

theorem ban_alone (s : Server) (ip : Text) (w : ℕ) (t : Threads) (i : ℕ) :
    Reaches threadStep (t.setHandler i (.banRules ip ⟨banCalls ip, none⟩) s)
      (t.setHandler i .idle { banRequest ip w s with
        acks := s.acks ++ [.ban ip (expirationTimeSeconds + gracePeriodSeconds) (s.now + w)] }) := by
  calc Reaches threadStep (t.setHandler i (.banRules ip ⟨banCalls ip, none⟩) s)
        (t.setHandler i (.banStamp ip) { s with fw := makeCalls (banCalls ip) s.fw }) :=
          reaches_rules (banRules_makesCalls ip) t i (banCalls ip) s
    Reaches threadStep _ (t.setHandler i (.banStamp ip)
        { s with now := s.now + w, fw := makeCalls (banCalls ip) s.fw }) := reaches_wait t i _ _ w
    Reaches threadStep _ (t.setHandler i (.banReply ip) (banRequest ip w s)) :=
          (reaches_handle 0 rfl).trans (reaches_handle 0 rfl)
    Reaches threadStep _ _ := reaches_handle 0 rfl

/-- a cleaner on its own: its program counter, its list, the firewall -/
def cleanerAlone {α : Type} (time : α → ℤ) (action : α → List Call) (now : ℤ) (c : CleanerPc α × List α × Firewall)
    (_ : Unit) : Option (CleanerPc α × List α × Firewall) :=
  cleanerStep time action now c.2.1 c.2.2 c.1

/-- what a cleaner does on its own is done by operation `o` of the machine it is part of -/
theorem cleaner_embeds {α σ ι : Type} {time : α → ℤ} {action : α → List Call} {now : ℤ} (step : σ → ι → Option σ)
    (o : ι) (put : CleanerPc α × List α × Firewall → σ) (hstep : ∀ c c',
      cleanerStep time action now c.2.1 c.2.2 c.1 = some c' → step (put c) o = some (put c'))
    {c c' : CleanerPc α × List α × Firewall} (h : Reaches (cleanerAlone time action now) c c') :
    Reaches step (put c) (put c') := by
  apply h.map step put
  intro c _ c' hc
  exact reaches_of_step (hstep c c' hc)

/-- one round of a cleaner whose head is due, undisturbed -/
theorem reaches_cleaned {α : Type} (time : α → ℤ) (action : α → List Call) {now : ℤ} {elm : α} (rest : List α)
    (fw : Firewall) (hdue : getExpirationTimeMap (time elm) ≤ now) :
    Reaches (cleanerAlone time action now) (.top, elm :: rest, fw) (.top, rest, makeCalls (action elm) fw) := by
  have h1 : cleanerAlone time action now (.waiting elm, elm :: rest, fw) () = some (.popping elm, elm :: rest, fw) := by
    simp only [cleanerAlone, cleanerStep, if_neg (not_lt.2 hdue)]
  have h2 := reaches_makeCalls (cleanerAlone time action now) ()
    (fun calls fw => (.acting elm (some elm) calls, rest, fw))
    (fun calls fw calls' fw' h => by simp only [cleanerAlone, cleanerStep, h]) (action elm) fw
  have h3 : Reaches (cleanerAlone time action now) (.top, elm :: rest, fw) (.waiting elm, elm :: rest, fw) :=
    (reaches_of_step (o := ()) rfl).after (o := ()) (t := (.headSeen, elm :: rest, fw)) rfl
  exact h3.trans (((h2.trans (reaches_of_step (o := ()) rfl)).after (o := ()) rfl).after (o := ()) h1)

/-- **The threads do what the one-at-a-time server does.** Between requests, a step of the server is a few steps of one
thread, after which all threads are again where they were. -/
theorem step_alone {t : Threads} (hq : Quiet t) {s' : Server} {o : Op} (h : step t.srv o = some s') :
    Reaches threadStep t { t with srv := s' } := by
  cases o with
  | wait d =>
    simp only [step, Option.some.injEq] at h
    exact reaches_of_step (o := .wait d) (by rw [← h]; rfl)
  | add ip e =>
    have hadd := add_alone h t 0
    rw [setHandler_idle (hq.handlers 0)] at hadd
    exact hadd.after (o := .recvAdd 0 ip e.uninit) (by simp [threadStep, hq.handlers 0])
  | ban ip w =>
    simp only [step, Option.some.injEq] at h
    have hban := ban_alone t.srv ip w t 0
    rw [setHandler_idle (hq.handlers 0)] at hban
    rw [← h]
    exact hban.after (o := .recvBan 0 ip) (by simp [threadStep, hq.handlers 0])
  | expireMapping =>
    obtain ⟨m, rest, hl, hdue, rfl⟩ := step_expireMapping h
    have hround := cleaner_embeds threadStep .cleanMapping (fun c => { t with
        srv := { t.srv with mappingList := c.2.1, fw := c.2.2 }
        mappingCleaner := c.1 }) (fun c c' hc => by simp [threadStep, hc])
      (reaches_cleaned Mapping.time expiredMapCalls rest t.srv.fw hdue)
    rw [makeCalls_expiredMap] at hround
    simpa only [← hl, ← hq.mappingCleaner] using hround
  | expireBan =>
    obtain ⟨b, rest, hl, hdue, rfl⟩ := step_expireBan h
    have hround := cleaner_embeds threadStep .cleanBan (fun c => { t with
        srv := { t.srv with bannedList := c.2.1, fw := c.2.2 }
        banCleaner := c.1 }) (fun c c' hc => by simp [threadStep, hc])
      (reaches_cleaned Ban.time expiredBanCalls rest t.srv.fw hdue)
    rw [makeCalls_expiredBan] at hround
    simpa only [← hl, ← hq.banCleaner] using hround

/-- every run of the one-at-a-time server is a run of the threads -/
theorem run_alone {t : Threads} (hq : Quiet t) {s' : Server} {ops : List Op} (h : run step t.srv ops = some s') :
    Reaches threadStep t { t with srv := s' } :=
  have hreach : Reaches step t.srv s' := ⟨ops, h⟩
  hreach.map threadStep (fun s => { t with srv := s })
    fun s _ _ hs => step_alone (t := { t with srv := s }) ⟨hq.handlers, hq.mappingCleaner, hq.banCleaner⟩ hs

/-- all threads idle over a server that has just set up its access rules -/
def bootThreads : Threads := ⟨bootServer, fun _ => .idle, .top, .top⟩

theorem bootThreads_quiet : Quiet bootThreads := ⟨fun _ => rfl, rfl, rfl⟩

end NetSec.NatServer
