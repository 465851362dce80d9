/-
Are the lists in order of time? (NAT/NATServer.c, lines 480-487 and 585-642)

A cleaner looks only at the head of its list, which is right if times do not decrease from head to tail. A handler reads
the clock for its entry before it takes the lock under which it appends the entry, so that another one can read a later
clock and append first (`overtaken_ban`). `ReadInOrder` says of the order of steps that none does, unless what it has
appended is gone again.

`Appends` is what the two lists have in common: handlers append entries that they have stamped with the clock, the
cleaner takes the head off.

- `stamp_step`: an entry about to be appended carries the clock of its handler's last step;
- `appended_between`: what has come into a list, a handler has appended;
- `sorted_iff`: so a list stays sorted exactly if no handler is overtaken;
- `time_order_iff`: both lists are sorted, and nothing expired waits behind an unexpired head, exactly in the runs in
  which no handler is.
-/
import NetSec.Core.Turns
import NetSec.NatServer.Cleaning

namespace NetSec.NatServer

open NetSec.Run

/-! ## Properties -/

/-- from head to tail, times do not decrease -/
structure ListsSorted (s : Server) : Prop where
  mappings : s.mappingList.Pairwise fun a b => a.time ≤ b.time
  bans : s.bannedList.Pairwise fun a b => a.time ≤ b.time

/-- whenever the head is unexpired, so is every entry -/
structure HeadsFirst (s : Server) : Prop where
  mappings : ∀ m ∈ s.mappingList.head?, ¬ Due Mapping.time s.now m → ∀ x ∈ s.mappingList, ¬ Due Mapping.time s.now x
  bans : ∀ b ∈ s.bannedList.head?, ¬ Due Ban.time s.now b → ∀ x ∈ s.bannedList, ¬ Due Ban.time s.now x

section OneList

variable {α : Type}

/-- what the step appends, if `entry` is what a handler is about to append -/
def appended (entry : Pc → Option α) (t : Threads) : ThreadOp → Option α
  | .handle i _ => entry (t.handler i)
  | _ => none

/-- between a handler's reading of the clock for an entry and its append, no other handler reads a later clock and
appends an entry that is still in the list -/
def ReadInOrder (list : Server → List α) (entry : Pc → Option α) (s : Threads) (ops : List ThreadOp) : Prop :=
  ∀ tid (u : Turn threadStep ThreadOp.thread tid s ops) elm, appended entry u.last u.next = some elm →
    ∀ tid' (v : Turn threadStep ThreadOp.thread tid' u.after u.mid) elm', appended entry v.last v.next = some elm' →
      elm' ∈ list u.last.srv → v.before.srv.now ≤ u.before.srv.now

/-! ## One list -/

/-- handlers append what they have stamped, the cleaner takes the head off -/
structure Appends (list : Server → List α) (entry : Pc → Option α) (time : α → ℤ) : Prop where
  step : ∀ {t o t'}, threadStep t o = some t' → list t'.srv = list t.srv ++ (appended entry t o).toList ∨
    (appended entry t o = none ∧ list t'.srv = (list t.srv).tail)
  stamp : ∀ {rand s pc pc' s' elm}, handlerStep rand s pc = some (pc', s') → entry pc' = some elm → time elm = s.now
  idle : entry .idle = none
  add : ∀ isp, entry (.addStart isp) = none
  ban : ∀ ip calls, entry (.banRules ip calls) = none

/-- what a thread is about to append -/
def stamped (entry : Pc → Option α) (t : Threads) : Tid → Option α
  | .handler i => entry (t.handler i)
  | _ => none

theorem appended_eq (entry : Pc → Option α) (t : Threads) (o : ThreadOp) :
    appended entry t o = o.thread.bind (stamped entry t) := by
  cases o <;> rfl

variable {list : Server → List α} {entry : Pc → Option α} {time : α → ℤ}

theorem stamped_other (h : Appends list entry time) (t : Threads) (o : ThreadOp) (t' : Threads)
    (hs : threadStep t o = some t') (tid : Tid) (hne : o.thread ≠ some tid) :
    stamped entry t' tid = stamped entry t tid := by
  cases tid with
  | handler j =>
    simp only [stamped]
    rcases handler_other hs hne with hsame | ⟨hidle, ⟨isp, hstart⟩ | ⟨ip, hstart⟩⟩
    · rw [hsame]
    · rw [hidle, hstart, h.idle, h.add]
    · rw [hidle, hstart, h.idle, h.ban]
  | mappingCleaner => rfl
  | banCleaner => rfl

/-- the clock stands still during a step of a thread -/
theorem now_thread {t t' : Threads} {o : ThreadOp} (hs : threadStep t o = some t') {tid : Tid}
    (htid : o.thread = some tid) : t'.srv.now = t.srv.now := by
  cases o with
  | handle i rand =>
    obtain ⟨pc, srv, hstep, rfl⟩ := threadStep_handle hs
    exact (handlerStep_lists hstep).1
  | cleanMapping => exact (threadStep_cleanMapping hs).1
  | cleanBan => exact (threadStep_cleanBan hs).1
  | _ => cases htid

theorem threadStep_now_le {t t' : Threads} {o : ThreadOp} (hs : threadStep t o = some t') : t.srv.now ≤ t'.srv.now := by
  cases o with
  | wait d =>
    obtain rfl := Option.some.inj hs
    exact le_add_of_nonneg_right d.cast_nonneg
  | recvAdd i ip uninit =>
    obtain ⟨-, rfl⟩ := threadStep_recvAdd hs
    exact le_rfl
  | recvBan i ip =>
    obtain ⟨-, rfl⟩ := threadStep_recvBan hs
    exact le_rfl
  | _ => exact (now_thread hs rfl).ge

/-- **A stamp is a reading of the clock**, at the last step of its handler. -/
theorem stamp_step (h : Appends list entry time) {t t' : Threads} {o : ThreadOp} (hs : threadStep t o = some t')
    {tid : Tid} (htid : o.thread = some tid) {elm : α} (helm : stamped entry t' tid = some elm) :
    time elm = t.srv.now := by
  cases o with
  | handle i rand =>
    obtain ⟨pc, srv, hstep, rfl⟩ := threadStep_handle hs
    obtain rfl := Option.some.inj htid
    rw [stamped, setHandler_self] at helm
    exact h.stamp hstep helm
  | cleanMapping =>
    obtain rfl := Option.some.inj htid
    cases helm
  | cleanBan =>
    obtain rfl := Option.some.inj htid
    cases helm
  | _ => cases htid

/-- an append can be made -/
theorem appended_isSome (h : Appends list entry time) {t : Threads} {o : ThreadOp} {elm : α}
    (helm : appended entry t o = some elm) : ∃ t', threadStep t o = some t' := by
  cases o with
  | handle i rand =>
    have hbusy : t.handler i ≠ .idle := by
      intro hidle
      rw [appended, hidle, h.idle] at helm
      cases helm
    obtain ⟨pc, srv, hs⟩ := handlerStep_busy hbusy rand t.srv
    exact ⟨t.setHandler i pc srv, by rw [threadStep, hs]; rfl⟩
  | _ => cases helm

/-- an entry that is appended at the end of a turn has the clock of its beginning -/
theorem turn_stamp (h : Appends list entry time) {s : Threads} {ops : List ThreadOp} {tid : Tid}
    (u : Turn threadStep ThreadOp.thread tid s ops) {elm : α} (helm : appended entry u.last u.next = some elm) :
    time elm = u.before.srv.now := by
  rw [appended_eq, u.who_next, Option.bind_some, u.kept (stamped_other h)] at helm
  exact stamp_step h u.run_first u.who_first helm

/-- no stamp is of the future -/
structure StampsPast (list : Server → List α) (entry : Pc → Option α) (time : α → ℤ) (t : Threads) : Prop where
  list : ∀ elm ∈ list t.srv, time elm ≤ t.srv.now
  handlers : ∀ tid elm, stamped entry t tid = some elm → time elm ≤ t.srv.now

theorem stampsPast_step (h : Appends list entry time) (t : Threads) (o : ThreadOp) (t' : Threads)
    (hp : StampsPast list entry time t) (hs : threadStep t o = some t') : StampsPast list entry time t' := by
  have hnow := threadStep_now_le hs
  refine ⟨?_, ?_⟩
  · intro elm helm
    rcases h.step hs with hlist | ⟨-, hlist⟩
    · rw [hlist, List.mem_append] at helm
      rcases helm with helm | helm
      · exact (hp.list elm helm).trans hnow
      · rw [Option.mem_toList, appended_eq] at helm
        obtain ⟨tid, -, helm⟩ := Option.bind_eq_some_iff.1 helm
        exact (hp.handlers tid elm helm).trans hnow
    · rw [hlist] at helm
      exact (hp.list elm (List.mem_of_mem_tail helm)).trans hnow
  · intro tid elm helm
    by_cases htid : o.thread = some tid
    · exact (stamp_step h hs htid helm).le.trans hnow
    · rw [stamped_other h t o t' hs tid htid] at helm
      exact (hp.handlers tid elm helm).trans hnow

/-- **What has come into the list** was appended on the way. -/
theorem appended_between (h : Appends list entry time) {y z : Threads} {mid : List ThreadOp}
    (hrun : run threadStep y mid = some z) {elm : α} (hz : elm ∈ list z.srv) (hy : elm ∉ list y.srv) :
    ∃ pre o w, pre ++ [o] <+: mid ∧ run threadStep y pre = some w ∧ appended entry w o = some elm := by
  induction mid using List.reverseRecOn generalizing z with
  | nil =>
    obtain rfl := Option.some.inj hrun
    exact absurd hz hy
  | append_singleton mid o ih =>
    rw [run_append, Option.bind_eq_some_iff] at hrun
    obtain ⟨w, hw, hlast⟩ := hrun
    rw [run_cons, Option.bind_eq_some_iff] at hlast
    obtain ⟨z', hstep, hend⟩ := hlast
    obtain rfl := Option.some.inj hend
    have hbefore : elm ∈ list w.srv → ∃ pre o' w, pre ++ [o'] <+: mid ++ [o] ∧ run threadStep y pre = some w ∧
        appended entry w o' = some elm := by
      intro hmem
      obtain ⟨pre, o', w', hpre, hrest⟩ := ih hw hmem
      exact ⟨pre, o', w', hpre.trans (List.prefix_append _ _), hrest⟩
    rcases h.step hstep with hlist | ⟨-, hlist⟩
    · rw [hlist, List.mem_append, Option.mem_toList] at hz
      rcases hz with hz | hz
      · exact hbefore hz
      · exact ⟨mid, o, w, List.prefix_refl _, hw, hz⟩
    · rw [hlist] at hz
      exact hbefore (List.mem_of_mem_tail hz)

/-- no entry of the list has a later stamp than one that is appended in order -/
theorem le_of_readInOrder (h : Appends list entry time) {s z : Threads} {ops pre : List ThreadOp} {o : ThreadOp}
    (hstart : ∀ tid, stamped entry s tid = none) (hpast : StampsPast list entry time s)
    (horder : ReadInOrder list entry s ops) (hops : pre ++ [o] <+: ops) (hz : run threadStep s pre = some z) {elm : α}
    (helm : appended entry z o = some elm) {x : α} (hx : x ∈ list z.srv) : time x ≤ time elm := by
  have hfind := appended_eq entry z o
  rw [helm] at hfind
  obtain ⟨tid, htid, hstamp⟩ := Option.bind_eq_some_iff.1 hfind.symm
  have hne : stamped entry z tid ≠ stamped entry s tid := by simp [hstamp, hstart tid]
  obtain ⟨u, -, rfl, rfl, -⟩ := exists_turn (stamped_other h) hops hz htid hne
  rw [turn_stamp h u helm]
  -- at the beginning of the turn all stamps are of the past
  have hafter : StampsPast list entry time u.after := run_inv threadStep (stampsPast_step h) hpast u.run_after
  have hnow : u.after.srv.now = u.before.srv.now := now_thread u.run_first u.who_first
  by_cases hold : x ∈ list u.after.srv
  · exact (hafter.list x hold).trans_eq hnow
  · obtain ⟨pre', o', w, hmid, hw, hx'⟩ := appended_between h u.run_mid hx hold
    have hfind' := appended_eq entry w o'
    rw [hx'] at hfind'
    obtain ⟨tid', htid', hstamp'⟩ := Option.bind_eq_some_iff.1 hfind'.symm
    by_cases hsame : stamped entry u.after tid' = some x
    · exact (hafter.handlers tid' x hsame).trans_eq hnow
    · -- it was read and appended in between
      have hne' : stamped entry w tid' ≠ stamped entry u.after tid' := by
        rw [hstamp']
        exact fun he => hsame he.symm
      obtain ⟨v, -, rfl, rfl, -⟩ := exists_turn (stamped_other h) hmid hw htid' hne'
      rw [turn_stamp h v hx']
      exact horder tid u elm helm tid' v x hx' hx

/-- **Sorted exactly if nobody is overtaken.** -/
theorem sorted_iff (h : Appends list entry time) {s : Threads} (hempty : list s.srv = [])
    (hstart : ∀ tid, stamped entry s tid = none) (ops : List ThreadOp) :
    EveryState threadStep (fun t => (list t.srv).Pairwise fun a b => time a ≤ time b) s ops ↔
      ReadInOrder list entry s ops := by
  have hpast : StampsPast list entry time s := ⟨by simp [hempty], by simp [hstart]⟩
  refine ⟨?_, ?_⟩
  · intro hsorted tid u elm helm tid' v elm' helm' hmem
    obtain ⟨y, hy⟩ := appended_isSome h helm
    have hrun : run threadStep s (u.past ++ [u.next]) = some y := by
      rw [run_append, u.run_past, Option.bind_some, run_cons, hy]
      rfl
    have hpair : (list y.srv).Pairwise fun a b => time a ≤ time b := hsorted _ u.past_prefix y hrun
    rcases h.step hy with hlist | ⟨hnone, -⟩
    · rw [hlist, helm, List.pairwise_append] at hpair
      rw [← turn_stamp h u helm, ← turn_stamp h v helm']
      exact hpair.2.2 elm' hmem elm (List.mem_singleton_self elm)
    · rw [hnone] at helm
      cases helm
  · intro horder
    suffices hall : ∀ pre, pre <+: ops →
        EveryState threadStep (fun t => (list t.srv).Pairwise fun a b => time a ≤ time b) s pre from
      hall ops (List.prefix_refl ops)
    intro pre hpre
    induction pre using List.reverseRecOn with
    | nil =>
      refine (everyState_nil threadStep _ s).2 ?_
      rw [hempty]
      exact List.Pairwise.nil
    | append_singleton pre o ih =>
      have hbefore := ih ((List.prefix_append pre [o]).trans hpre)
      refine (everyState_concat threadStep _ s pre o).2 ⟨hbefore, ?_⟩
      intro z' hz'
      rw [run_append, Option.bind_eq_some_iff] at hz'
      obtain ⟨z, hz, hlast⟩ := hz'
      rw [run_cons, Option.bind_eq_some_iff] at hlast
      obtain ⟨z'', hstep, hend⟩ := hlast
      obtain rfl := Option.some.inj hend
      have hsorted := hbefore pre (List.prefix_refl pre) z hz
      rcases h.step hstep with hlist | ⟨-, hlist⟩
      · rw [hlist]
        refine List.pairwise_append.2 ⟨hsorted, by cases appended entry z o <;> simp, ?_⟩
        intro x hx elm helm
        exact le_of_readInOrder h hstart hpast horder hpre hz (Option.mem_toList.1 helm) hx
      · rw [hlist]
        exact hsorted.tail

end OneList

/-! ## Both lists -/

/-- neither list is appended to out of the order in which the clock was read -/
structure AppendInOrder (s : Threads) (ops : List ThreadOp) : Prop where
  mappings : ReadInOrder Server.mappingList Pc.newMapping s ops
  bans : ReadInOrder Server.bannedList Pc.newBan s ops

/-- a handler comes to an insertion only from its reading of the clock -/
theorem handlerStep_stamp {rand : ℕ} {s s' : Server} {pc pc' : Pc} (h : handlerStep rand s pc = some (pc', s')) :
    (∀ m, pc'.newMapping = some m → m.time = s.now) ∧ ∀ b, pc'.newBan = some b → b.time = s.now := by
  cases pc with
  | idle => simp [handlerStep] at h
  | addStamp isp pub =>
    simp only [handlerStep, Option.some.injEq, Prod.mk.injEq] at h
    obtain ⟨rfl, -⟩ := h
    refine ⟨?_, by simp [Pc.newBan]⟩
    intro m hm
    obtain rfl := Option.some.inj hm
    rfl
  | banStamp ip =>
    simp only [handlerStep, Option.some.injEq, Prod.mk.injEq] at h
    obtain ⟨rfl, -⟩ := h
    refine ⟨by simp [Pc.newMapping], ?_⟩
    intro b hb
    obtain rfl := Option.some.inj hb
    rfl
  | _ =>
    simp only [handlerStep] at h
    (try split at h) <;> simp only [Option.some.injEq, Prod.mk.injEq] at h <;> obtain ⟨rfl, -⟩ := h <;>
      simp [Pc.newMapping, Pc.newBan]

/-- what a step does to the lists -/
theorem threadStep_lists {t t' : Threads} {o : ThreadOp} (hs : threadStep t o = some t') :
    (t'.srv.mappingList = t.srv.mappingList ++ (appended Pc.newMapping t o).toList ∨
      (appended Pc.newMapping t o = none ∧ t'.srv.mappingList = t.srv.mappingList.tail)) ∧
    (t'.srv.bannedList = t.srv.bannedList ++ (appended Pc.newBan t o).toList ∨
      (appended Pc.newBan t o = none ∧ t'.srv.bannedList = t.srv.bannedList.tail)) := by
  cases o with
  | wait d =>
    obtain rfl := Option.some.inj hs
    simp [appended]
  | recvAdd i ip uninit =>
    obtain ⟨-, rfl⟩ := threadStep_recvAdd hs
    simp [appended]
  | recvBan i ip =>
    obtain ⟨-, rfl⟩ := threadStep_recvBan hs
    simp [appended]
  | handle i rand =>
    obtain ⟨pc, srv, hstep, rfl⟩ := threadStep_handle hs
    obtain ⟨-, hmapping, hban⟩ := handlerStep_lists hstep
    exact ⟨Or.inl hmapping, Or.inl hban⟩
  | cleanMapping =>
    obtain ⟨⟨pc, list, fw⟩, hc, rfl⟩ := Option.map_eq_some_iff.1 hs
    rcases cleanerStep_list hc with rfl | rfl
    · simp [appended]
    · simp [appended]
  | cleanBan =>
    obtain ⟨⟨pc, list, fw⟩, hc, rfl⟩ := Option.map_eq_some_iff.1 hs
    rcases cleanerStep_list hc with rfl | rfl
    · simp [appended]
    · simp [appended]

theorem appends_mapping : Appends Server.mappingList Pc.newMapping Mapping.time where
  step hs := (threadStep_lists hs).1
  stamp hs helm := (handlerStep_stamp hs).1 _ helm
  idle := rfl
  add _ := rfl
  ban _ _ := rfl

theorem appends_ban : Appends Server.bannedList Pc.newBan Ban.time where
  step hs := (threadStep_lists hs).2
  stamp hs helm := (handlerStep_stamp hs).2 _ helm
  idle := rfl
  add _ := rfl
  ban _ _ := rfl

theorem ListsSorted.headsFirst {s : Server} (h : ListsSorted s) : HeadsFirst s :=
  ⟨fun _ hm hd => due_head h.mappings hm hd, fun _ hb hd => due_head h.bans hb hd⟩

/-- **Time order, exactly.** Both lists are sorted in every state of a run, with nothing expired behind an unexpired
head, if and only if between no handler's reading of the clock for an entry and its append another handler has read a
later clock and appended an entry that is still there. -/
theorem time_order_iff (now : ℤ) (fw : Firewall) (ops : List ThreadOp) :
    EveryState threadStep (fun t => ListsSorted t.srv ∧ HeadsFirst t.srv) (startThreads now fw) ops ↔
      AppendInOrder (startThreads now fw) ops := by
  have hmapping := sorted_iff appends_mapping (s := startThreads now fw) rfl (by intro tid; cases tid <;> rfl) ops
  have hban := sorted_iff appends_ban (s := startThreads now fw) rfl (by intro tid; cases tid <;> rfl) ops
  refine ⟨?_, ?_⟩
  · intro h
    exact ⟨hmapping.1 fun pre hpre t ht => (h pre hpre t ht).1.mappings,
      hban.1 fun pre hpre t ht => (h pre hpre t ht).1.bans⟩
  · intro h pre hpre t ht
    have hsorted : ListsSorted t.srv := ⟨hmapping.2 h.mappings pre hpre t ht, hban.2 h.bans pre hpre t ht⟩
    exact ⟨hsorted, hsorted.headsFirst⟩

/-- two bans: the first handler reads the clock, then the second one a second later, which appends first -/
def overtaken : List ThreadOp :=
  [.recvBan 0 clientA, .recvBan 1 clientA] ++ List.replicate 4 (.handle 0 0) ++ [.wait 1] ++
    List.replicate 5 (.handle 1 0) ++ [.handle 0 0, .wait 6]

/-- **An expired ban behind an unexpired one.** -/
theorem overtaken_ban : (∃ t, run threadStep (startThreads 0 bootServer.fw) overtaken = some t ∧
      t.srv.bannedList = [⟨1, clientA⟩, ⟨0, clientA⟩] ∧ ¬ ListsSorted t.srv ∧ ¬ HeadsFirst t.srv) ∧
    ¬ EveryState threadStep (fun t => ListsSorted t.srv ∧ HeadsFirst t.srv) (startThreads 0 bootServer.fw)
      overtaken := by
  have hrun : ∃ t, run threadStep (startThreads 0 bootServer.fw) overtaken = some t ∧ t.srv.now = 7 ∧
      t.srv.bannedList = [⟨1, clientA⟩, ⟨0, clientA⟩] := ⟨_, rfl, by decide, by decide⟩
  obtain ⟨t, ht, hnow, hlist⟩ := hrun
  have hunsorted : ¬ ListsSorted t.srv := by
    intro h
    have hpair := h.bans
    rw [hlist] at hpair
    simp at hpair
  have hlate : ¬ HeadsFirst t.srv := by
    intro h
    have hbans := h.bans
    rw [hlist, hnow] at hbans
    exact hbans ⟨1, clientA⟩ rfl (by decide) ⟨0, clientA⟩ (by simp) (by decide)
  refine ⟨⟨t, ht, hlist, hunsorted, hlate⟩, ?_⟩
  intro h
  exact hunsorted (h overtaken (List.prefix_refl _) t ht).1

end NetSec.NatServer
