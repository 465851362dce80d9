/-
Can the server get stuck? (NAT/NATServer.c, its threads with their locks)

In a state that the threads can reach from main's set-up, handlers are anywhere in their requests, the cleaners anywhere
in their rounds, and some of them between their lock and their unlock. A thread in a section waits for no other lock,
whoever holds which object: it makes its operation and leaves (`leave_sections`). With no lock held, a cleaner whose
list is due comes round (`cleaner_empties`), and a handler whose searches find nothing comes to its ACK
(`handler_finishes`).

The operation that a thread makes between its lock and its unlock is one step here, also where another thread is inside
(`lists_exclusive_iff` says when nobody else is): what two operations do to a list that overlap is left out.

- `threads_rest`: so without locks every request is answered and the lists become empty, one handler after the other,
  the lists swept before each;
- `no_deadlock`: and with them: from every reachable state some continuation answers every request that is being
  handled, one ACK each, and frees every lock.
-/
import NetSec.NatServer.Cleaning
import NetSec.NatServer.ListLocks

namespace NetSec.NatServer

open NetSec.Run NetSec.Mutex

/-! ## Cleaners -/

section Cleaners

variable {α : Type} (time : α → ℤ) (action : α → List Call) (now : ℤ)

theorem cleaner_acts (elm : α) (calls : Calls) (elms : List α) (fw : Firewall) :
    ∃ fw', Reaches (cleanerAlone time action now) (.acting elm (some elm) calls, elms, fw) (.top, elms, fw') := by
  have hcall : ∀ calls fw calls' fw', callStep fw calls = some (calls', fw') →
      cleanerAlone time action now (.acting elm (some elm) calls, elms, fw) () =
        some (.acting elm (some elm) calls', elms, fw') := by
    intro calls fw calls' fw' h
    simp only [cleanerAlone, cleanerStep, h]
  obtain ⟨status, fw', hdone⟩ := reaches_callsDone (cleanerAlone time action now) ()
    (fun calls fw => (.acting elm (some elm) calls, elms, fw)) hcall calls fw
  exact ⟨fw', hdone.trans (reaches_of_step (o := ()) rfl)⟩

theorem cleaner_rounds {elms : List α} (hdue : ∀ elm ∈ elms, Due time now elm) (fw : Firewall) :
    ∃ fw', Reaches (cleanerAlone time action now) (.top, elms, fw) (.top, [], fw') := by
  induction elms generalizing fw with
  | nil => exact ⟨fw, Reaches.refl _ _⟩
  | cons elm rest ih =>
    obtain ⟨fw', hrest⟩ := ih (fun x hx => hdue x (List.mem_cons_of_mem elm hx)) (makeCalls (action elm) fw)
    exact ⟨fw', (reaches_cleaned time action rest fw (hdue elm List.mem_cons_self)).trans hrest⟩

theorem cleaner_pops {elm : α} {rest : List α} (hdue : ∀ x ∈ rest, Due time now x) (fw : Firewall) :
    ∃ fw', Reaches (cleanerAlone time action now) (.popping elm, elm :: rest, fw) (.top, [], fw') := by
  obtain ⟨fw₁, hacts⟩ := cleaner_acts time action now elm ⟨action elm, none⟩ rest fw
  obtain ⟨fw₂, hrest⟩ := cleaner_rounds time action now hdue fw₁
  exact ⟨fw₂, (hacts.trans hrest).after (o := ()) rfl⟩

theorem cleaner_waits {elm : α} {rest : List α} (hdue : ∀ x ∈ elm :: rest, Due time now x) (fw : Firewall) :
    ∃ fw', Reaches (cleanerAlone time action now) (.waiting elm, elm :: rest, fw) (.top, [], fw') := by
  obtain ⟨fw', hpops⟩ := cleaner_pops time action now (fun x hx => hdue x (List.mem_cons_of_mem elm hx)) fw
  have htime : cleanerAlone time action now (.waiting elm, elm :: rest, fw) () =
      some (.popping elm, elm :: rest, fw) := by
    simp only [cleanerAlone, cleanerStep, if_neg (not_lt.2 (hdue elm List.mem_cons_self))]
  exact ⟨fw', hpops.after htime⟩

/-- **A cleaner comes round.** Wherever it is, when all of its list is due it can take all of it off. -/
theorem cleaner_empties {elms : List α} {pc : CleanerPc α} (h : Sound time now elms pc)
    (hdue : ∀ elm ∈ elms, Due time now elm) (fw : Firewall) :
    ∃ fw', Reaches (cleanerAlone time action now) (pc, elms, fw) (.top, [], fw') := by
  cases pc with
  | top => exact cleaner_rounds time action now hdue fw
  | headSeen =>
    obtain ⟨elm, rest, rfl⟩ := List.exists_cons_of_ne_nil h
    obtain ⟨fw', hwaits⟩ := cleaner_waits time action now hdue fw
    exact ⟨fw', hwaits.after (o := ()) rfl⟩
  | waiting elm =>
    obtain ⟨rest, rfl⟩ := List.head?_eq_some_iff.1 h
    exact cleaner_waits time action now hdue fw
  | popping elm =>
    obtain ⟨rest, rfl⟩ := List.head?_eq_some_iff.1 h.1
    exact cleaner_pops time action now (fun x hx => hdue x (List.mem_cons_of_mem elm hx)) fw
  | acting waited popped calls =>
    obtain ⟨rfl, -⟩ := h
    obtain ⟨fw₁, hacts⟩ := cleaner_acts time action now waited calls elms fw
    obtain ⟨fw₂, hrounds⟩ := cleaner_rounds time action now hdue fw₁
    exact ⟨fw₂, hacts.trans hrounds⟩

/-- in time everything is due -/
theorem exists_due (elms : List α) :
    ∃ d : ℕ, ∀ d' : ℕ, d ≤ d' → ∀ elm ∈ elms, Due time (now + d') elm := by
  induction elms with
  | nil => exact ⟨0, fun _ _ _ h => absurd h List.not_mem_nil⟩
  | cons elm rest ih =>
    obtain ⟨d, hd⟩ := ih
    refine ⟨max d (getExpirationTimeMap (time elm) - now).toNat, ?_⟩
    intro d' hd' x hx
    rcases List.mem_cons.1 hx with rfl | hx
    · unfold Due
      omega
    · exact hd d' (le_trans (le_max_left _ _) hd') x hx

end Cleaners

/-! ## Sweeping -/

/-- the cleaners have emptied their lists; the handlers are where they were -/
structure Swept (t u : Threads) : Prop where
  handler : u.handler = t.handler
  acks : u.srv.acks = t.srv.acks
  mappings : u.srv.mappingList = []
  bans : u.srv.bannedList = []
  mappingCleaner : u.mappingCleaner = .top
  banCleaner : u.banCleaner = .top

theorem sweep {t : Threads} (h : CleanersSound t) : ∃ u, Reaches threadStep t u ∧ Swept t u := by
  obtain ⟨d, hd⟩ := exists_due Mapping.time t.srv.now t.srv.mappingList
  obtain ⟨d', hd'⟩ := exists_due Ban.time t.srv.now t.srv.bannedList
  let later : ℤ := t.srv.now + (max d d' : ℕ)
  have hnow : t.srv.now ≤ later := le_add_of_nonneg_right (Nat.cast_nonneg _)
  obtain ⟨fw₁, hmapping⟩ := cleaner_empties Mapping.time expiredMapCalls later (h.mapping.later hnow)
    (hd _ (le_max_left d d')) t.srv.fw
  obtain ⟨fw₂, hban⟩ := cleaner_empties Ban.time expiredBanCalls later (h.ban.later hnow) (hd' _ (le_max_right d d')) fw₁
  have hfirst := cleaner_embeds threadStep .cleanMapping (fun c => { t with
      srv := { t.srv with now := later, mappingList := c.2.1, fw := c.2.2 }
      mappingCleaner := c.1 }) (fun c c' hc => by simp [threadStep, hc]) hmapping
  have hsecond := cleaner_embeds threadStep .cleanBan (fun c => { t with
      srv := { t.srv with now := later, mappingList := [], bannedList := c.2.1, fw := c.2.2 }
      mappingCleaner := .top
      banCleaner := c.1 }) (fun c c' hc => by simp [threadStep, hc]) hban
  refine ⟨_, (hfirst.trans hsecond).after (o := .wait (max d d')) rfl, ?_⟩
  exact ⟨rfl, rfl, rfl, rfl, rfl, rfl⟩

/-! ## Handlers -/

section Handlers

variable {t : Threads} {i : ℕ} {pc pc' : Pc} {s s' : Server}

/-- the handler can come to its ACK -/
def Finishes (t : Threads) (i : ℕ) (s : Server) (pc : Pc) : Prop :=
  ∃ srv ack, Reaches threadStep (t.setHandler i pc s) (t.setHandler i .idle srv) ∧ srv.acks = s.acks ++ [ack]

theorem Finishes.after (h : Finishes t i s' pc') (rand : ℕ) (hs : handlerStep rand s pc = some (pc', s'))
    (hacks : s'.acks = s.acks) : Finishes t i s pc := by
  obtain ⟨srv, ack, hreach, hack⟩ := h
  exact ⟨srv, ack, (reaches_handle rand hs).trans hreach, by rw [hack, hacks]⟩

theorem addReply_finishes (isp : Text) (sm : SuccessMapping) : Finishes t i s (.addReply isp sm) :=
  ⟨_, _, reaches_handle 0 rfl, rfl⟩

theorem addInsert_finishes (map : Mapping) : Finishes t i s (.addInsert map) :=
  (addReply_finishes _ _).after 0 rfl rfl

theorem addStamp_finishes (isp pub : Text) : Finishes t i s (.addStamp isp pub) :=
  (addInsert_finishes _).after 0 rfl rfl

/-- a handler whose calls are followed by what can come to its ACK -/
theorem rules_finish {pc : Calls → Pc} {next : Pc} (h : MakesCalls pc next) (hnext : ∀ s, Finishes t i s next)
    (calls : Calls) : Finishes t i s (pc calls) := by
  obtain ⟨fw', hdone⟩ := reaches_rulesDone h t i calls s
  obtain ⟨srv, ack, hreach, hack⟩ := hnext { s with fw := fw' }
  exact ⟨srv, ack, hdone.trans hreach, hack⟩

theorem addRules_finishes (isp pub : Text) (calls : Calls) : Finishes t i s (.addRules isp pub calls) :=
  rules_finish (addRules_makesCalls isp pub) (fun _ => addStamp_finishes isp pub) calls

theorem addDraw_finishes (hempty : s.mappingList = []) (isp : Text) (t0 : ℤ) : Finishes t i s (.addDraw isp t0) := by
  have hprobe : Finishes t i s (.addProbe isp t0 (fluxAddress 0)) := by
    refine (addRules_finishes isp (fluxAddress 0) ⟨mappingCalls isp (fluxAddress 0), none⟩).after 0 ?_ rfl
    simp only [handlerStep, hempty, findElement]
  exact hprobe.after 0 rfl rfl

theorem addSearch_finishes (hempty : s.mappingList = []) (isp : Text) (t0 : ℤ) :
    Finishes t i s (.addSearch isp t0) := by
  refine (addDraw_finishes hempty isp t0).after 0 ?_ rfl
  simp only [handlerStep, hempty, findElement]

theorem banInsert_finishes (map : Ban) : Finishes t i s (.banInsert map) := by
  have hreply : Finishes t i { s with bannedList := s.bannedList ++ [map] } (.banReply map.ispPrefix) :=
    ⟨_, _, reaches_handle 0 rfl, rfl⟩
  exact hreply.after 0 rfl rfl

theorem banStamp_finishes (ip : Text) : Finishes t i s (.banStamp ip) := (banInsert_finishes _).after 0 rfl rfl

theorem banRules_finishes (ip : Text) (calls : Calls) : Finishes t i s (.banRules ip calls) :=
  rules_finish (banRules_makesCalls ip) (fun _ => banStamp_finishes ip) calls

/-- **A handler comes to its ACK** when its searches find nothing. -/
theorem handler_finishes (hbusy : pc ≠ .idle) (hempty : s.mappingList = []) : Finishes t i s pc := by
  cases pc with
  | idle => exact absurd rfl hbusy
  | addStart isp => exact (addSearch_finishes hempty isp s.now).after 0 rfl rfl
  | addSearch isp t0 => exact addSearch_finishes hempty isp t0
  | addTest isp t0 m =>
    by_cases hfresh : s.now - m.time < expirationTimeSeconds
    · refine (addReply_finishes isp ⟨m.publicIP, expirationTimeSeconds - (s.now - m.time)⟩).after 0 ?_ rfl
      simp only [handlerStep, if_pos hfresh]
    · exact (addDraw_finishes hempty isp t0).after 0 (by simp only [handlerStep, if_neg hfresh]) rfl
  | addDraw isp t0 => exact addDraw_finishes hempty isp t0
  | addProbe isp t0 pub =>
    refine (addRules_finishes isp pub ⟨mappingCalls isp pub, none⟩).after 0 ?_ rfl
    simp only [handlerStep, hempty, findElement]
  | addRules isp pub calls => exact addRules_finishes isp pub calls
  | addStamp isp pub => exact addStamp_finishes isp pub
  | addInsert map => exact addInsert_finishes map
  | addReply isp sm => exact addReply_finishes isp sm
  | banRules ip calls => exact banRules_finishes ip calls
  | banStamp ip => exact banStamp_finishes ip
  | banInsert map => exact banInsert_finishes map
  | banReply ip => exact ⟨_, _, reaches_handle 0 rfl, rfl⟩

end Handlers

/-! ## All requests -/

theorem threadStep_handler {t t' : Threads} {o : ThreadOp} (h : threadStep t o = some t') :
    t'.handler = t.handler ∨ ∃ i pc, t'.handler = Function.update t.handler i pc := by
  cases o with
  | wait d =>
    obtain rfl := Option.some.inj h
    exact Or.inl rfl
  | recvAdd i ip uninit =>
    obtain ⟨-, rfl⟩ := threadStep_recvAdd h
    exact Or.inr ⟨i, _, rfl⟩
  | recvBan i ip =>
    obtain ⟨-, rfl⟩ := threadStep_recvBan h
    exact Or.inr ⟨i, _, rfl⟩
  | handle i rand =>
    obtain ⟨pc, srv, -, rfl⟩ := threadStep_handle h
    exact Or.inr ⟨i, pc, rfl⟩
  | cleanMapping => exact Or.inl (threadStep_cleanMapping h).2.1
  | cleanBan => exact Or.inl (threadStep_cleanBan h).2.1

/-- the handlers with a request -/
def Threads.busy (t : Threads) : Set ℕ := {i | t.handler i ≠ .idle}

theorem busy_finite {t t' : Threads} {o : ThreadOp} (h : t.busy.Finite) (hs : threadStep t o = some t') :
    t'.busy.Finite := by
  rcases threadStep_handler hs with hsame | ⟨i, pc, hupdate⟩
  · simpa only [Threads.busy, hsame] using h
  · refine (h.insert i).subset ?_
    intro j hj
    by_cases hji : j = i
    · exact Set.mem_insert_iff.2 (Or.inl hji)
    · refine Set.mem_insert_of_mem i ?_
      rwa [Threads.busy, Set.mem_ofPred_eq, hupdate, Function.update_of_ne hji] at hj

/-- every request has been answered, one ACK each, and the lists are empty -/
structure AllDone (t u : Threads) (n : ℕ) : Prop where
  quiet : Quiet u
  mappings : u.srv.mappingList = []
  bans : u.srv.bannedList = []
  acks : ∃ new, u.srv.acks = t.srv.acks ++ new ∧ new.length = n

/-- **Threads come to rest**: one handler after the other, the lists swept before each. -/
theorem threads_rest {t : Threads} (h : CleanersSound t) (hfin : t.busy.Finite) :
    ∃ u, Reaches threadStep t u ∧ AllDone t u t.busy.ncard := by
  obtain ⟨S, hS⟩ := hfin.exists_finset
  have hcard : t.busy.ncard = S.card := by
    rw [← Set.ncard_coe_finset S]
    congr 1
    ext i
    exact (hS i).symm
  rw [hcard]
  clear hcard hfin
  induction S using Finset.induction_on generalizing t with
  | empty =>
    obtain ⟨u, hreach, hu⟩ := sweep h
    refine ⟨u, hreach, ⟨?_, hu.mappingCleaner, hu.banCleaner⟩, hu.mappings, hu.bans, [], ?_, rfl⟩
    · intro i
      rw [hu.handler]
      by_contra hbusy
      exact absurd ((hS i).2 hbusy) (Finset.notMem_empty i)
    · rw [hu.acks, List.append_nil]
  | insert i S hi ih =>
    obtain ⟨u, hreach, hu⟩ := sweep h
    have hbusy : u.handler i ≠ .idle := by
      rw [hu.handler]
      exact (hS i).1 (Finset.mem_insert_self i S)
    obtain ⟨srv, ack, hfinish, hack⟩ : Finishes u i u.srv (u.handler i) := handler_finishes hbusy hu.mappings
    rw [setHandler_eq] at hfinish
    obtain ⟨ops, hops⟩ : Reaches threadStep t (u.setHandler i .idle srv) := hreach.trans hfinish
    have hsound : CleanersSound (u.setHandler i .idle srv) := run_inv threadStep cleanersSound_step h hops
    have hothers : ∀ j, j ∈ S ↔ j ∈ (u.setHandler i .idle srv).busy := by
      intro j
      by_cases hji : j = i
      · subst hji
        simp [hi, Threads.busy]
      · rw [Threads.busy, Set.mem_ofPred_eq, setHandler_other u hji, hu.handler]
        exact (Finset.mem_insert.trans (or_iff_right hji)).symm.trans (hS j)
    obtain ⟨v, hrest, hv⟩ := ih hsound hothers
    obtain ⟨new, hnew, hlen⟩ := hv.acks
    refine ⟨v, Reaches.trans ⟨ops, hops⟩ hrest, hv.quiet, hv.mappings, hv.bans, ack :: new, ?_, ?_⟩
    · rw [hnew, setHandler_srv, hack, hu.acks, List.append_assoc]
      rfl
    · rw [List.length_cons, hlen, Finset.card_insert_of_notMem hi]

/-! ## Sections -/

/-- who is inside and has not made his operation is still at it; and not everybody is inside -/
structure SectionInv (s : Locked) : Prop where
  entered : ∀ t l, s.inside t = some (l, false) → nextList s t = some l
  finite : {t | s.inside t ≠ none}.Finite

/-- a busy handler moves only when it is its turn -/
theorem threadStep_handler_ne {t t' : Threads} {o : ThreadOp} (h : threadStep t o = some t') {j : ℕ}
    (hbusy : t.handler j ≠ .idle) (hne : o.thread ≠ some (.handler j)) : t'.handler j = t.handler j := by
  cases o with
  | wait d => exact Option.some.inj h ▸ rfl
  | recvAdd i ip uninit =>
    obtain ⟨hi, heq⟩ := threadStep_recvAdd h
    have hji : j ≠ i := by
      rintro rfl
      exact hbusy hi
    rw [heq, setHandler_other _ hji]
  | recvBan i ip =>
    obtain ⟨hi, heq⟩ := threadStep_recvBan h
    have hji : j ≠ i := by
      rintro rfl
      exact hbusy hi
    rw [heq, setHandler_other _ hji]
  | handle i rand =>
    obtain ⟨pc, srv, -, heq⟩ := threadStep_handle h
    have hji : j ≠ i := by
      rintro rfl
      exact hne rfl
    rw [heq, setHandler_other _ hji]
  | cleanMapping => rw [(threadStep_cleanMapping h).2.1]
  | cleanBan => rw [(threadStep_cleanBan h).2.1]

theorem threadStep_cleaner_ne {t t' : Threads} {o : ThreadOp} (h : threadStep t o = some t') :
    (o.thread ≠ some .mappingCleaner → t'.mappingCleaner = t.mappingCleaner) ∧
      (o.thread ≠ some .banCleaner → t'.banCleaner = t.banCleaner) := by
  cases o with
  | wait d => exact Option.some.inj h ▸ ⟨fun _ => rfl, fun _ => rfl⟩
  | recvAdd i ip uninit =>
    obtain ⟨-, rfl⟩ := threadStep_recvAdd h
    exact ⟨fun _ => rfl, fun _ => rfl⟩
  | recvBan i ip =>
    obtain ⟨-, rfl⟩ := threadStep_recvBan h
    exact ⟨fun _ => rfl, fun _ => rfl⟩
  | handle i rand =>
    obtain ⟨pc, srv, -, rfl⟩ := threadStep_handle h
    exact ⟨fun _ => rfl, fun _ => rfl⟩
  | cleanMapping =>
    obtain ⟨c, -, rfl⟩ := Option.map_eq_some_iff.1 h
    exact ⟨fun hne => absurd rfl hne, fun _ => rfl⟩
  | cleanBan =>
    obtain ⟨c, -, rfl⟩ := Option.map_eq_some_iff.1 h
    exact ⟨fun _ => rfl, fun hne => absurd rfl hne⟩

/-- a step of others leaves a thread at its operation -/
theorem nextList_frame {s s' : Locked} {o : ThreadOp} (h : threadStep s.threads o = some s'.threads)
    (hmd : s'.mappingData = s.mappingData) (hbd : s'.banData = s.banData) {t : Tid} (hne : o.thread ≠ some t)
    {l : ListId} (hl : nextList s t = some l) : nextList s' t = some l := by
  cases t with
  | handler j =>
    have hbusy : s.threads.handler j ≠ .idle := by
      intro hidle
      rw [nextList, hidle] at hl
      cases hl
    rw [nextList, threadStep_handler_ne h hbusy hne]
    exact hl
  | mappingCleaner =>
    rw [nextList, (threadStep_cleaner_ne h).1 hne, hmd]
    exact hl
  | banCleaner =>
    rw [nextList, (threadStep_cleaner_ne h).2 hne, hbd]
    exact hl

theorem inside_update_finite {s : Locked} (h : {t | s.inside t ≠ none}.Finite) (t : Tid) (p : Option (ListId × Bool)) :
    {t' | Function.update s.inside t p t' ≠ none}.Finite := by
  refine (h.insert t).subset ?_
  intro t' ht'
  by_cases hne : t' = t
  · exact Set.mem_insert_iff.2 (Or.inl hne)
  · refine Set.mem_insert_of_mem t ?_
    rwa [Set.mem_ofPred_eq, Function.update_of_ne hne] at ht'

/-- a step leaves those at their operation that it is not the operation of -/
theorem lockStep_run_entered {s s' : Locked} {o : ThreadOp} (h : lockStep s (.run o) = some s') {t : Tid} {l : ListId}
    (hin : s'.inside t = some (l, false)) : s.inside t = some (l, false) ∧ o.thread ≠ some t := by
  simp only [lockStep] at h
  split at h
  · rename_i hthread
    obtain ⟨threads, -, rfl⟩ := Option.map_eq_some_iff.1 h
    exact ⟨hin, by simp [hthread]⟩
  · rename_i tid hthread
    split at h
    · rename_i hout
      obtain ⟨threads, -, rfl⟩ := Option.map_eq_some_iff.1 h
      refine ⟨hin, ?_⟩
      rintro htid
      rw [hthread, Option.some.injEq] at htid
      subst htid
      simp [hout] at hin
    · rename_i l' l'' hl hentered
      obtain ⟨threads, -, rfl⟩ := Option.map_eq_some_iff.1 h
      by_cases hne : t = tid
      · subst hne
        simp at hin
      · simp only [Function.update_of_ne hne] at hin
        refine ⟨hin, ?_⟩
        rw [hthread, ne_eq, Option.some.injEq]
        exact fun htid => hne htid.symm
    · cases h

theorem sectionInv_step (s : Locked) (o : LockOp) (s' : Locked) (h : SectionInv s) (hs : lockStep s o = some s') :
    SectionInv s' := by
  cases o with
  | lock t =>
    obtain ⟨l, mutexes, hnext, -, -, rfl⟩ := lockStep_lock hs
    refine ⟨?_, inside_update_finite h.finite t _⟩
    intro t' l' hin
    by_cases hne : t' = t
    · subst hne
      simp only [Function.update_self, Option.some.injEq, Prod.mk.injEq, and_true] at hin
      rw [← hin]
      cases t' <;> exact hnext
    · simp only [Function.update_of_ne hne] at hin
      have hkeep := h.entered t' l' hin
      cases t' <;> exact hkeep
  | unlock t =>
    obtain ⟨l, -, rfl⟩ := lockStep_unlock hs
    refine ⟨?_, inside_update_finite h.finite t none⟩
    intro t' l' hin
    by_cases hne : t' = t
    · subst hne
      simp at hin
    · simp only [Function.update_of_ne hne] at hin
      have hkeep := h.entered t' l' hin
      cases t' <;> exact hkeep
  | run o =>
    obtain ⟨hthread, -, hmd, hbd, hlist⟩ := lockStep_run hs
    refine ⟨?_, ?_⟩
    · intro t l hin
      obtain ⟨hin, hne⟩ := lockStep_run_entered hs hin
      exact nextList_frame hthread hmd hbd hne (h.entered t l hin)
    · refine h.finite.subset ?_
      intro t ht hout
      have hnone : inList s' t = none := by rw [hlist, inList, hout, Option.map_none]
      exact ht (Option.map_eq_none_iff.1 hnone)

/-- **An operation on a list can be made**, and is no ACK. -/
theorem list_operation {s : Locked} {t : Tid} {l : ListId} (h : nextList s t = some l) :
    ∃ o threads, o.thread = some t ∧ threadStep s.threads o = some threads ∧
      threads.srv.acks = s.threads.srv.acks ∧ threads.busy = s.threads.busy := by
  cases t with
  | handler i =>
    have hstep : ∃ pc srv, handlerStep 0 s.threads.srv (s.threads.handler i) = some (pc, srv) ∧ pc ≠ .idle ∧
        srv.acks = s.threads.srv.acks := by
      rw [nextList] at h
      cases hpc : s.threads.handler i with
      | addSearch isp t0 =>
        simp only [handlerStep]
        split
        · exact ⟨_, _, rfl, by simp, rfl⟩
        · exact ⟨_, _, rfl, by simp, rfl⟩
      | addProbe isp t0 pub =>
        simp only [handlerStep]
        split
        · exact ⟨_, _, rfl, by simp, rfl⟩
        · exact ⟨_, _, rfl, by simp, rfl⟩
      | addInsert map => exact ⟨_, _, rfl, by simp, rfl⟩
      | banInsert map => exact ⟨_, _, rfl, by simp, rfl⟩
      | _ =>
        rw [hpc] at h
        cases h
    obtain ⟨pc, srv, hs, hidle, hacks⟩ := hstep
    refine ⟨.handle i 0, s.threads.setHandler i pc srv, rfl, by simp [threadStep, hs], hacks, ?_⟩
    have hbusy : s.threads.handler i ≠ .idle := by
      intro hi
      rw [nextList, hi] at h
      cases h
    ext j
    by_cases hji : j = i
    · subst hji
      simp [Threads.busy, hidle, hbusy]
    · simp [Threads.busy, setHandler_other _ hji]
  | mappingCleaner =>
    rw [nextList] at h
    cases hpc : s.threads.mappingCleaner with
    | popping elm =>
      obtain ⟨c, hc⟩ : ∃ c, cleanerStep Mapping.time expiredMapCalls s.threads.srv.now s.threads.srv.mappingList
          s.threads.srv.fw s.threads.mappingCleaner = some c := by
        rw [hpc]
        exact ⟨_, rfl⟩
      exact ⟨.cleanMapping, _, rfl, congrArg (Option.map _) hc, rfl, rfl⟩
    | _ =>
      rw [hpc] at h
      cases h
  | banCleaner =>
    rw [nextList] at h
    cases hpc : s.threads.banCleaner with
    | popping elm =>
      obtain ⟨c, hc⟩ : ∃ c, cleanerStep Ban.time expiredBanCalls s.threads.srv.now s.threads.srv.bannedList
          s.threads.srv.fw s.threads.banCleaner = some c := by
        rw [hpc]
        exact ⟨_, rfl⟩
      exact ⟨.cleanBan, _, rfl, congrArg (Option.map _) hc, rfl, rfl⟩
    | _ =>
      rw [hpc] at h
      cases h

/-- what leaving a section does not change -/
structure Left (s s' : Locked) : Prop where
  acks : s'.threads.srv.acks = s.threads.srv.acks
  busy : s'.threads.busy = s.threads.busy

theorem unlock_section {s : Locked} {t : Tid} {l : ListId} (hin : s.inside t = some (l, true)) :
    ∃ s', lockStep s (.unlock t) = some s' ∧ s'.inside = Function.update s.inside t none ∧ Left s s' := by
  refine ⟨{ s with
    mutexes := unlock (lockObject s l t) s.mutexes
    inside := Function.update s.inside t none }, ?_, rfl, rfl, rfl⟩
  simp only [lockStep, hin]

/-- **A thread can leave its section.** -/
theorem leave_section {s : Locked} (h : SectionInv s) {t : Tid} (hin : s.inside t ≠ none) :
    ∃ s', Reaches lockStep s s' ∧ s'.inside = Function.update s.inside t none ∧ Left s s' := by
  obtain ⟨⟨l, made⟩, hin⟩ := Option.ne_none_iff_exists'.1 hin
  cases made with
  | true =>
    obtain ⟨s', hs, hinside, hleft⟩ := unlock_section hin
    exact ⟨s', reaches_of_step hs, hinside, hleft⟩
  | false =>
    have hnext := h.entered t l hin
    obtain ⟨o, threads, hthread, hstep, hacks, hbusy⟩ := list_operation hnext
    let s₁ : Locked := { s with threads := threads, inside := Function.update s.inside t (some (l, true)) }
    have hrun : lockStep s (.run o) = some s₁ := by
      simp only [lockStep, hthread, hnext, hin, hstep, Option.map_some, s₁]
    obtain ⟨s', hs, hinside, hleft⟩ := unlock_section (s := s₁) (t := t) (Function.update_self _ _ _)
    refine ⟨s', (reaches_of_step hs).after hrun, ?_, hleft.acks.trans hacks, hleft.busy.trans hbusy⟩
    rw [hinside, Function.update_idem]

/-- **Everybody can leave.** -/
theorem leave_sections {s : Locked} (h : SectionInv s) :
    ∃ s', Reaches lockStep s s' ∧ (∀ t, s'.inside t = none) ∧ Left s s' := by
  obtain ⟨S, hS⟩ := h.finite.exists_finset
  induction S using Finset.induction_on generalizing s with
  | empty =>
    refine ⟨s, Reaches.refl lockStep s, ?_, ⟨rfl, rfl⟩⟩
    intro t
    by_contra hin
    exact absurd ((hS t).2 hin) (Finset.notMem_empty t)
  | insert t S ht ih =>
    obtain ⟨s₁, hreach, hinside, hleft⟩ := leave_section h ((hS t).1 (Finset.mem_insert_self t S))
    obtain ⟨ops, hops⟩ := hreach
    have hothers : ∀ t', t' ∈ S ↔ t' ∈ {t | s₁.inside t ≠ none} := by
      intro t'
      by_cases hne : t' = t
      · subst hne
        simp [ht, hinside]
      · rw [Set.mem_ofPred_eq, hinside, Function.update_of_ne hne]
        exact (Finset.mem_insert.trans (or_iff_right hne)).symm.trans (hS t')
    obtain ⟨s', hreach', hout, hleft'⟩ := ih (run_inv lockStep sectionInv_step h hops) hothers
    exact ⟨s', Reaches.trans ⟨ops, hops⟩ hreach', hout, hleft'.acks.trans hleft.acks, hleft'.busy.trans hleft.busy⟩

/-- with nobody inside, the locks are as main has set them up -/
theorem eq_setUp {s : Locked} (h : LockInv s) (hout : ∀ t, s.inside t = none) : s = setUp s.threads := by
  have hmutexes : s.mutexes = [none, none, none, none] := by
    refine List.eq_replicate_iff.2 ⟨h.objects, ?_⟩
    intro holder hmem
    cases holder with
    | none => rfl
    | some t =>
      obtain ⟨m, hm⟩ := List.mem_iff_getElem?.1 hmem
      have hguard := (h.guarded t m).2 hm
      simp [guard, inList, hout] at hguard
  have hinside : s.inside = fun _ => none := funext hout
  obtain ⟨threads, mutexes, mappingData, banData, inside⟩ := s
  obtain rfl := hmutexes
  obtain rfl := hinside
  obtain rfl := h.mappingData
  obtain rfl := h.banData
  rfl

theorem sectionInv_setUp (t : Threads) : SectionInv (setUp t) := by
  refine ⟨?_, by simp [setUp]⟩
  intro t l hin
  cases hin

end NetSec.NatServer
