/-
When do the threads behave like a server that does one thing at a time? (NAT/NATServer.c, its threads)

`Server` takes a request or an expiry in one step. The threads take many for it, and others come in between. Here a
thread begins only while no thread is at work (`OneAtATime`): a request is taken up, or an entry popped, when every
handler is idle and no cleaner is in its expiration action. What a cleaner does before it pops, and the clock, may come
in anywhere.

`Handling s u pc` says how far a handler at `pc` has come with a request that it took up in state `s` of the server,
when the threads share `u`; `Expiring` the same of the cleaner of a list. The server's step is made when the
request is answered, with the readings of the clock and the draws that the handler has made.

- `handling_step`: a step of the handler leaves the server where it is, or is its answer;
- `serial_step`: so every step that begins nothing out of turn is followed by steps of the server;
- `serial_refines`: a run of the threads in which each begins in turn leads, wherever nobody is at work, to a state of a
  run of the server: the same clock, tables and lists, and the same ACKs, which the threads may send later.
-/
import Mathlib.Data.List.Forall2
import NetSec.NatServer.Cleaning

namespace NetSec.NatServer

open NetSec.Run

/-! ## At work -/

/-- in the expiration action -/
def CleanerPc.Acting {α : Type} : CleanerPc α → Prop
  | .acting _ _ _ => True
  | _ => False

/-- some thread has begun something and not ended it -/
def AtWork (t : Threads) : Prop := (∃ i, t.handler i ≠ .idle) ∨ t.mappingCleaner.Acting ∨ t.banCleaner.Acting

/-- the step takes up a request, or pops an entry -/
def Begins (t : Threads) : ThreadOp → Prop
  | .recvAdd _ _ _ => True
  | .recvBan _ _ => True
  | .cleanMapping => ∃ elm, t.mappingCleaner = .popping elm
  | .cleanBan => ∃ elm, t.banCleaner = .popping elm
  | _ => False

/-- nobody begins while somebody is at work -/
def OneAtATime (t : Threads) (o : ThreadOp) : Prop := Begins t o → ¬ AtWork t

/-! ## The same server -/

/-- the same acknowledgement, sent at that time or later -/
def Ack.SentBy : Ack → Ack → Prop
  | .lease isp pub ttl sent, .lease isp' pub' ttl' sent' => isp = isp' ∧ pub = pub' ∧ ttl = ttl' ∧ sent ≤ sent'
  | .ban ip ttl sent, .ban ip' ttl' sent' => ip = ip' ∧ ttl = ttl' ∧ sent ≤ sent'
  | _, _ => False

/-- the two agree, but for the times of the ACKs -/
structure SameServer (s u : Server) : Prop where
  now : u.now = s.now
  fw : u.fw = s.fw
  mappings : u.mappingList = s.mappingList
  bans : u.bannedList = s.bannedList
  acks : List.Forall₂ Ack.SentBy s.acks u.acks

/-- since `s` the clock may have moved and the rules changed, nothing else -/
structure Untouched (s u : Server) : Prop where
  now : s.now ≤ u.now
  mappings : u.mappingList = s.mappingList
  bans : u.bannedList = s.bannedList
  acks : List.Forall₂ Ack.SentBy s.acks u.acks

/-- the step `o` of the server from `s`, with its ACK still to be sent -/
structure Replying (s u : Server) (o : Op) (ack : ℤ → Ack) : Prop where
  acks : List.Forall₂ Ack.SentBy s.acks u.acks
  done : ∃ s', step s o = some s' ∧ s'.acks = s.acks ++ [ack s'.now] ∧ s'.now ≤ u.now ∧ u.fw = s'.fw ∧
    u.mappingList = s'.mappingList ∧ u.bannedList = s'.bannedList

/-- the firewall when the calls have been made -/
def Calls.finish : Calls → Firewall → Firewall
  | ⟨cs, none⟩, fw => makeCalls cs fw
  | ⟨cs, some status⟩, fw => (callStep fw ⟨cs, some status⟩).elim fw fun (calls, fw) => makeCalls calls.pending fw

/-- no running lease was found, and the draws so far were all in use -/
def Drawing (s : Server) (isp : Text) (t0 now : ℤ) : Prop :=
  ∃ ip e t, isp = ispPrefix e.uninit ip ∧ t0 = s.now + e.waitSearch ∧ runningLease isp e s = (none, t) ∧
    ∀ draws, drawAddress s.mappingList (t0 - expirationTimeSeconds) t (e.draws ++ draws) =
      drawAddress s.mappingList (t0 - expirationTimeSeconds) now draws

/-- the address has been drawn -/
def AddressDrawn (s : Server) (isp pub : Text) (now : ℤ) : Prop :=
  ∃ ip e t, isp = ispPrefix e.uninit ip ∧ runningLease isp e s = (none, t) ∧
    drawAddress s.mappingList (s.now + e.waitSearch - expirationTimeSeconds) t e.draws = some (pub, now)

/-- how far the handler has come with what it took up in `s` -/
def Handling (s u : Server) : Pc → Prop
  | .idle => Untouched s u ∧ u.fw = s.fw
  | .addStart isp => (Untouched s u ∧ u.fw = s.fw) ∧ ∃ uninit ip, isp = ispPrefix uninit ip
  | .addSearch isp t0 =>
    (Untouched s u ∧ u.fw = s.fw) ∧ (∃ uninit ip, isp = ispPrefix uninit ip) ∧ s.now ≤ t0 ∧ t0 ≤ u.now
  | .addTest isp t0 m =>
    (Untouched s u ∧ u.fw = s.fw) ∧ (∃ uninit ip, isp = ispPrefix uninit ip) ∧ s.now ≤ t0 ∧ t0 ≤ u.now ∧
      findElement cmpMaps ⟨t0 - expirationTimeSeconds, some isp, none⟩ s.mappingList = some m
  | .addDraw isp t0 => (Untouched s u ∧ u.fw = s.fw) ∧ ∃ now, now ≤ u.now ∧ Drawing s isp t0 now
  | .addProbe isp t0 pub =>
    (Untouched s u ∧ u.fw = s.fw) ∧ ∃ now rand, now ≤ u.now ∧ Drawing s isp t0 now ∧ pub = fluxAddress rand
  | .addRules isp pub calls =>
    (Untouched s u ∧ calls.finish u.fw = makeCalls (mappingCalls isp pub) s.fw) ∧
      ∃ now, now ≤ u.now ∧ AddressDrawn s isp pub now
  | .addStamp isp pub =>
    (Untouched s u ∧ u.fw = makeCalls (mappingCalls isp pub) s.fw) ∧ ∃ now, now ≤ u.now ∧ AddressDrawn s isp pub now
  | .addInsert map =>
    (Untouched s u ∧ u.fw = makeCalls (mappingCalls map.ispPrefix map.publicIP) s.fw) ∧
      ∃ now, now ≤ map.time ∧ map.time ≤ u.now ∧ AddressDrawn s map.ispPrefix map.publicIP now
  | .addReply isp sm => ∃ ip e, Replying s u (.add ip e) (.lease isp sm.mappedIP sm.mapTTL)
  | .banRules ip calls => Untouched s u ∧ calls.finish u.fw = makeCalls (banCalls ip) s.fw
  | .banStamp ip => Untouched s u ∧ u.fw = makeCalls (banCalls ip) s.fw
  | .banInsert map =>
    (Untouched s u ∧ u.fw = makeCalls (banCalls map.ispPrefix) s.fw) ∧ s.now ≤ map.time ∧ map.time ≤ u.now
  | .banReply ip => ∃ w, Replying s u (.ban ip w) (.ban ip (expirationTimeSeconds + gracePeriodSeconds))

/-! ## Calls -/

theorem finish_nil (status : Option ℕ) (fw : Firewall) : Calls.finish ⟨[], status⟩ fw = fw := by
  cases status <;> rfl

/-- a step of the calls leaves what they come to as it is -/
theorem finish_callStep {fw fw' : Firewall} {calls calls' : Calls} (h : callStep fw calls = some (calls', fw')) :
    calls'.finish fw' = calls.finish fw := by
  obtain ⟨pending, status⟩ := calls
  cases pending with
  | nil => cases h
  | cons c cs =>
    cases status with
    | some status =>
      simp only [Calls.finish, h, Option.elim_some]
      obtain rfl : (⟨cs, none⟩ : Calls) = calls' := congrArg Prod.fst (Option.some.inj h)
      rfl
    | none =>
      rcases callStep_alone c cs fw with hdone | ⟨status, fw₁, htest, happly⟩
      · obtain ⟨rfl, rfl⟩ := Prod.mk.inj (Option.some.inj (h.symm.trans hdone))
        rfl
      · obtain ⟨rfl, rfl⟩ := Prod.mk.inj (Option.some.inj (h.symm.trans htest))
        simp only [Calls.finish, happly, Option.elim_some, makeCalls_cons]

/-- no call is left -/
theorem finish_of_none {fw : Firewall} {calls : Calls} (h : callStep fw calls = none) : calls.finish fw = fw := by
  obtain ⟨pending, status⟩ := calls
  cases pending with
  | nil => exact finish_nil status fw
  | cons c cs =>
    rcases callStep_alone c cs fw with hdone | ⟨_, _, hdone, -⟩ <;> cases status with
    | none => cases h.symm.trans hdone
    | some status => cases h

/-! ## A handler -/

section Handler

variable {s s' u u' : Server} {pc pc' : Pc}

theorem Untouched.refl (s : Server) : Untouched s s := by
  refine ⟨le_rfl, rfl, rfl, List.forall₂_same.2 ?_⟩
  intro ack _
  cases ack with
  | lease isp pub ttl sent => exact ⟨rfl, rfl, rfl, le_rfl⟩
  | ban ip ttl sent => exact ⟨rfl, rfl, le_rfl⟩

theorem Untouched.later (h : Untouched s u) {now : ℤ} (hnow : u.now ≤ now) : Untouched s { u with now := now } :=
  ⟨h.now.trans hnow, h.mappings, h.bans, h.acks⟩

theorem Untouched.rules (h : Untouched s u) (fw : Firewall) : Untouched s { u with fw := fw } :=
  ⟨h.now, h.mappings, h.bans, h.acks⟩

/-- the clock may move at any point -/
theorem Handling.later (h : Handling s u pc) {now : ℤ} (hnow : u.now ≤ now) : Handling s { u with now := now } pc := by
  cases pc with
  | idle => exact ⟨h.1.later hnow, h.2⟩
  | addStart isp => exact ⟨⟨h.1.1.later hnow, h.1.2⟩, h.2⟩
  | addSearch isp t0 => exact ⟨⟨h.1.1.later hnow, h.1.2⟩, h.2.1, h.2.2.1, h.2.2.2.trans hnow⟩
  | addTest isp t0 m => exact ⟨⟨h.1.1.later hnow, h.1.2⟩, h.2.1, h.2.2.1, h.2.2.2.1.trans hnow, h.2.2.2.2⟩
  | addDraw isp t0 =>
    obtain ⟨hsame, now', hle, hdrawing⟩ := h
    exact ⟨⟨hsame.1.later hnow, hsame.2⟩, now', hle.trans hnow, hdrawing⟩
  | addProbe isp t0 pub =>
    obtain ⟨hsame, now', rand, hle, hdrawing⟩ := h
    exact ⟨⟨hsame.1.later hnow, hsame.2⟩, now', rand, hle.trans hnow, hdrawing⟩
  | addRules isp pub calls =>
    obtain ⟨hsame, now', hle, hdrawn⟩ := h
    exact ⟨⟨hsame.1.later hnow, hsame.2⟩, now', hle.trans hnow, hdrawn⟩
  | addStamp isp pub =>
    obtain ⟨hsame, now', hle, hdrawn⟩ := h
    exact ⟨⟨hsame.1.later hnow, hsame.2⟩, now', hle.trans hnow, hdrawn⟩
  | addInsert map =>
    obtain ⟨hsame, now', hle, hstamp, hdrawn⟩ := h
    exact ⟨⟨hsame.1.later hnow, hsame.2⟩, now', hle, hstamp.trans hnow, hdrawn⟩
  | addReply isp sm =>
    obtain ⟨ip, e, hacks, s', hs', hack, hle, hrest⟩ := h
    exact ⟨ip, e, hacks, s', hs', hack, hle.trans hnow, hrest⟩
  | banRules ip calls => exact ⟨h.1.later hnow, h.2⟩
  | banStamp ip => exact ⟨h.1.later hnow, h.2⟩
  | banInsert map => exact ⟨⟨h.1.1.later hnow, h.1.2⟩, h.2.1, h.2.2.trans hnow⟩
  | banReply ip =>
    obtain ⟨w, hacks, s', hs', hack, hle, hrest⟩ := h
    exact ⟨w, hacks, s', hs', hack, hle.trans hnow, hrest⟩

/-! ### The search and the draws -/

/-- the search is over and has found no running lease -/
theorem drawing_of_runningLease {isp ip : Text} {e : AddEnv} {t0 t : ℤ} (hisp : isp = ispPrefix e.uninit ip)
    (ht0 : t0 = s.now + e.waitSearch) (hrun : runningLease isp e s = (none, t)) (hdraws : e.draws = []) :
    Drawing s isp t0 t := by
  refine ⟨ip, e, t, hisp, ht0, hrun, ?_⟩
  intro draws
  rw [hdraws, List.nil_append]

/-- a drawn address that is in use -/
theorem Drawing.again {isp : Text} {t0 now : ℤ} (h : Drawing s isp t0 now) {rand : ℕ} {m : Mapping}
    (hfound : findElement cmpMaps ⟨t0 - expirationTimeSeconds, none, some (fluxAddress rand)⟩ s.mappingList = some m) :
    Drawing s isp t0 now := by
  obtain ⟨ip, e, t, hisp, ht0, hrun, hdraws⟩ := h
  refine ⟨ip, { e with draws := e.draws ++ [⟨0, rand⟩] }, t, hisp, ht0, hrun, ?_⟩
  intro draws
  rw [List.append_assoc, hdraws]
  simp only [List.singleton_append, drawAddress, hfound, Nat.cast_zero, add_zero]

/-- a drawn address that is free -/
theorem Drawing.ended {isp : Text} {t0 now : ℤ} (h : Drawing s isp t0 now) {rand : ℕ}
    (hfree : findElement cmpMaps ⟨t0 - expirationTimeSeconds, none, some (fluxAddress rand)⟩ s.mappingList = none) :
    AddressDrawn s isp (fluxAddress rand) now := by
  obtain ⟨ip, e, t, hisp, ht0, hrun, hdraws⟩ := h
  refine ⟨ip, { e with draws := e.draws ++ [⟨0, rand⟩] }, t, hisp, hrun, ?_⟩
  simp only [← ht0, hdraws, drawAddress, hfree, Nat.cast_zero, add_zero, if_true]

/-! ### The answer -/

/-- a running lease is answered in one step -/
theorem replying_running {isp ip : Text} {e : AddEnv} {m : Mapping} (h : Untouched s u) (hfw : u.fw = s.fw)
    (hisp : isp = ispPrefix e.uninit ip) (hrun : runningLease isp e s = (some m, u.now)) (hdraws : e.draws = []) :
    Replying s u (.add ip e) (.lease isp m.publicIP (expirationTimeSeconds - (u.now - m.time))) := by
  subst hisp
  refine ⟨h.acks, { s with
    now := u.now
    acks := s.acks ++ [.lease (ispPrefix e.uninit ip) m.publicIP (expirationTimeSeconds - (u.now - m.time)) u.now] },
    ?_, rfl, le_rfl, hfw, h.mappings, h.bans⟩
  simp only [step, manipulateMapping, hrun, if_pos hdraws, Option.map_some]

/-- a mapping that has been inserted is installed in one step -/
theorem replying_installed {map : Mapping} {now : ℤ} (h : Untouched s u)
    (hfw : u.fw = makeCalls (mappingCalls map.ispPrefix map.publicIP) s.fw)
    (hdrawn : AddressDrawn s map.ispPrefix map.publicIP now) (hstamp : now ≤ map.time) (hnow : map.time ≤ u.now) :
    ∃ ip e, Replying s { u with mappingList := u.mappingList ++ [map] } (.add ip e)
      (.lease map.ispPrefix map.publicIP expirationTimeSeconds) := by
  obtain ⟨time, isp, pub⟩ := map
  obtain ⟨ip, e, t, rfl, hrun, hdraw⟩ := hdrawn
  have htime : now + ((time - now).toNat : ℕ) = time := by
    change now ≤ time at hstamp
    omega
  have hrun' : runningLease (ispPrefix e.uninit ip) { e with waitStamp := (time - now).toNat } s = (none, t) := hrun
  refine ⟨ip, { e with waitStamp := (time - now).toNat }, h.acks, { install (ispPrefix e.uninit ip) pub time s with
    acks := s.acks ++ [.lease (ispPrefix e.uninit ip) pub expirationTimeSeconds time] }, ?_, rfl, hnow, ?_, ?_, h.bans⟩
  · simp only [step, manipulateMapping, hrun', hdraw, htime, Option.map_some]
    rfl
  · rw [← makeCalls_mapping (ispPrefix e.uninit ip) pub time s]
    exact hfw
  · change u.mappingList ++ [⟨time, _, pub⟩] = s.mappingList ++ [⟨time, _, pub⟩]
    rw [h.mappings]

/-- a ban is entered in one step -/
theorem replying_banned {map : Ban} (h : Untouched s u) (hfw : u.fw = makeCalls (banCalls map.ispPrefix) s.fw)
    (hstamp : s.now ≤ map.time) (hnow : map.time ≤ u.now) :
    ∃ w, Replying s { u with bannedList := u.bannedList ++ [map] } (.ban map.ispPrefix w)
      (.ban map.ispPrefix (expirationTimeSeconds + gracePeriodSeconds)) := by
  obtain ⟨time, ip⟩ := map
  have htime : s.now + ((time - s.now).toNat : ℕ) = time := by
    change s.now ≤ time at hstamp
    omega
  refine ⟨(time - s.now).toNat, h.acks, _, rfl, ?_, ?_, hfw, h.mappings, ?_⟩
  · rfl
  · change s.now + ((time - s.now).toNat : ℕ) ≤ u.now
    rw [htime]
    exact hnow
  · change u.bannedList ++ [⟨time, ip⟩] = s.bannedList ++ [⟨s.now + ((time - s.now).toNat : ℕ), ip⟩]
    rw [htime, h.bans]

/-- the ACK is sent -/
theorem Replying.sent {o : Op} {ack : ℤ → Ack} (h : Replying s u o ack)
    (hlater : ∀ sent, sent ≤ u.now → (ack sent).SentBy (ack u.now)) :
    ∃ s', Reaches step s s' ∧ Handling s' { u with acks := u.acks ++ [ack u.now] } .idle := by
  obtain ⟨hacks, s', hs', hack, hnow, hfw, hmappings, hbans⟩ := h
  refine ⟨s', reaches_of_step hs', ⟨hnow, hmappings, hbans, ?_⟩, hfw⟩
  rw [hack]
  exact List.rel_append hacks (List.Forall₂.cons (hlater _ hnow) List.Forall₂.nil)

/-- **A step of a handler.** The server stays where it is until the ACK is sent. -/
theorem handling_step (h : Handling s u pc) {rand : ℕ} (hs : handlerStep rand u pc = some (pc', u')) :
    ∃ s', Reaches step s s' ∧ Handling s' u' pc' := by
  have hstay (hh : Handling s u' pc') : ∃ s', Reaches step s s' ∧ Handling s' u' pc' := ⟨s, Reaches.refl step s, hh⟩
  cases pc with
  | idle => cases hs
  | addStart isp =>
    obtain ⟨rfl, rfl⟩ := Prod.mk.inj (Option.some.inj hs)
    exact hstay ⟨h.1, h.2, h.1.1.now, le_rfl⟩
  | addSearch isp t0 =>
    obtain ⟨hsame, ⟨uninit, ip, hisp⟩, hle, hnow⟩ := h
    simp only [handlerStep] at hs
    split at hs
    · rename_i hnone
      obtain ⟨rfl, rfl⟩ := Prod.mk.inj (Option.some.inj hs)
      have ht0 : t0 = s.now + ((t0 - s.now).toNat : ℕ) := by omega
      refine hstay ⟨hsame, t0, hnow, ?_⟩
      refine drawing_of_runningLease (e := ⟨uninit, (t0 - s.now).toNat, 0, [], 0⟩) hisp ht0 ?_ rfl
      rw [hsame.1.mappings] at hnone
      simp only [runningLease, ← ht0, hnone]
    · rename_i m hm
      obtain ⟨rfl, rfl⟩ := Prod.mk.inj (Option.some.inj hs)
      exact hstay ⟨hsame, ⟨uninit, ip, hisp⟩, hle, hnow, hsame.1.mappings ▸ hm⟩
  | addTest isp t0 m =>
    obtain ⟨hsame, ⟨uninit, ip, hisp⟩, hle, hnow, hm⟩ := h
    -- the clock was read at `t0` for the search, and is read now
    let e : AddEnv := ⟨uninit, (t0 - s.now).toNat, (u.now - t0).toNat, [], 0⟩
    have ht0 : t0 = s.now + ((t0 - s.now).toNat : ℕ) := by omega
    have htest : t0 + ((u.now - t0).toNat : ℕ) = u.now := by omega
    simp only [handlerStep] at hs
    split_ifs at hs with hfresh
    · obtain ⟨rfl, rfl⟩ := Prod.mk.inj (Option.some.inj hs)
      refine hstay ⟨ip, e, replying_running (e := e) hsame.1 hsame.2 hisp ?_ rfl⟩
      simp only [runningLease, e, ← ht0, hm, htest, if_pos hfresh]
    · obtain ⟨rfl, rfl⟩ := Prod.mk.inj (Option.some.inj hs)
      refine hstay ⟨hsame, u.now, le_rfl, drawing_of_runningLease (e := e) hisp ht0 ?_ rfl⟩
      simp only [runningLease, e, ← ht0, hm, htest, if_neg hfresh]
  | addDraw isp t0 =>
    obtain ⟨rfl, rfl⟩ := Prod.mk.inj (Option.some.inj hs)
    obtain ⟨hsame, now, hle, hdrawing⟩ := h
    exact hstay ⟨hsame, now, rand, hle, hdrawing, rfl⟩
  | addProbe isp t0 pub =>
    obtain ⟨hsame, now, rand', hle, hdrawing, rfl⟩ := h
    simp only [handlerStep, hsame.1.mappings] at hs
    split at hs
    · rename_i m hm
      obtain ⟨rfl, rfl⟩ := Prod.mk.inj (Option.some.inj hs)
      exact hstay ⟨hsame, now, hle, hdrawing.again hm⟩
    · rename_i hnone
      obtain ⟨rfl, rfl⟩ := Prod.mk.inj (Option.some.inj hs)
      exact hstay ⟨⟨hsame.1, congrArg (makeCalls _) hsame.2⟩, now, hle, hdrawing.ended hnone⟩
  | addRules isp pub calls =>
    obtain ⟨hsame, hdrawn⟩ := h
    simp only [handlerStep] at hs
    split at hs
    · rename_i calls' fw' hcall
      obtain ⟨rfl, rfl⟩ := Prod.mk.inj (Option.some.inj hs)
      exact hstay ⟨⟨hsame.1.rules fw', (finish_callStep hcall).trans hsame.2⟩, hdrawn⟩
    · rename_i hcall
      obtain ⟨rfl, rfl⟩ := Prod.mk.inj (Option.some.inj hs)
      exact hstay ⟨⟨hsame.1, (finish_of_none hcall).symm.trans hsame.2⟩, hdrawn⟩
  | addStamp isp pub =>
    obtain ⟨rfl, rfl⟩ := Prod.mk.inj (Option.some.inj hs)
    obtain ⟨hsame, now, hle, hdrawn⟩ := h
    exact hstay ⟨hsame, now, hle, le_rfl, hdrawn⟩
  | addInsert map =>
    obtain ⟨rfl, rfl⟩ := Prod.mk.inj (Option.some.inj hs)
    obtain ⟨hsame, now, hstamp, hnow, hdrawn⟩ := h
    exact hstay (replying_installed hsame.1 hsame.2 hdrawn hstamp hnow)
  | addReply isp sm =>
    obtain ⟨rfl, rfl⟩ := Prod.mk.inj (Option.some.inj hs)
    obtain ⟨ip, e, hreply⟩ := h
    exact hreply.sent fun _ hle => ⟨rfl, rfl, rfl, hle⟩
  | banRules ip calls =>
    simp only [handlerStep] at hs
    split at hs
    · rename_i calls' fw' hcall
      obtain ⟨rfl, rfl⟩ := Prod.mk.inj (Option.some.inj hs)
      exact hstay ⟨h.1.rules fw', (finish_callStep hcall).trans h.2⟩
    · rename_i hcall
      obtain ⟨rfl, rfl⟩ := Prod.mk.inj (Option.some.inj hs)
      exact hstay ⟨h.1, (finish_of_none hcall).symm.trans h.2⟩
  | banStamp ip =>
    obtain ⟨rfl, rfl⟩ := Prod.mk.inj (Option.some.inj hs)
    exact hstay ⟨h, h.1.now, le_rfl⟩
  | banInsert map =>
    obtain ⟨rfl, rfl⟩ := Prod.mk.inj (Option.some.inj hs)
    exact hstay (replying_banned h.1.1 h.1.2 h.2.1 h.2.2)
  | banReply ip =>
    obtain ⟨rfl, rfl⟩ := Prod.mk.inj (Option.some.inj hs)
    obtain ⟨w, hreply⟩ := h
    exact hreply.sent fun _ hle => ⟨rfl, rfl, hle⟩

end Handler

/-! ## A cleaner -/

section Cleaner

variable {α : Type} {time : α → ℤ} {action : α → List Call} {now : ℤ} {list list' : List α} {fw fw' : Firewall}
  {pc pc' : CleanerPc α}

/-- until it pops, a cleaner changes nothing -/
theorem cleanerStep_looks (h : cleanerStep time action now list fw pc = some (pc', list', fw')) (hacts : ¬ pc.Acting)
    (hpops : ∀ elm, pc ≠ .popping elm) : list' = list ∧ fw' = fw ∧ ¬ pc'.Acting := by
  cases pc with
  | top =>
    simp only [cleanerStep, Option.some.injEq, Prod.mk.injEq] at h
    obtain ⟨rfl, rfl, rfl⟩ := h
    refine ⟨rfl, rfl, ?_⟩
    split_ifs <;> exact id
  | headSeen =>
    simp only [cleanerStep, Option.map_eq_some_iff, Prod.mk.injEq] at h
    obtain ⟨elm, -, rfl, rfl, rfl⟩ := h
    exact ⟨rfl, rfl, id⟩
  | waiting elm =>
    simp only [cleanerStep, Option.some.injEq, Prod.mk.injEq] at h
    obtain ⟨rfl, rfl, rfl⟩ := h
    refine ⟨rfl, rfl, ?_⟩
    split_ifs <;> exact id
  | popping elm => exact absurd rfl (hpops elm)
  | acting waited popped calls => exact absurd trivial hacts

/-- it pops what it has waited for -/
theorem cleanerStep_pops {elm : α} (h : cleanerStep time action now list fw (.popping elm) = some (pc', list', fw'))
    (hsound : Sound time now list (.popping elm)) :
    list = elm :: list' ∧ Due time now elm ∧ pc' = .acting elm (some elm) ⟨action elm, none⟩ ∧ fw' = fw := by
  obtain ⟨hhead, hdue⟩ := hsound
  obtain ⟨rest, rfl⟩ := List.head?_eq_some_iff.1 hhead
  simp only [cleanerStep, popElement, Option.map_some, Option.getD_some, Option.some.injEq, Prod.mk.injEq] at h
  obtain ⟨rfl, rfl, rfl⟩ := h
  exact ⟨rfl, hdue, rfl, rfl⟩

/-- a step of the expiration action, or its end -/
theorem cleanerStep_acts {waited elm : α} {calls : Calls}
    (h : cleanerStep time action now list fw (.acting waited (some elm) calls) = some (pc', list', fw')) :
    list' = list ∧ ((∃ calls', pc' = .acting waited (some elm) calls' ∧ calls'.finish fw' = calls.finish fw) ∨
      pc' = .top ∧ fw' = calls.finish fw) := by
  simp only [cleanerStep] at h
  split at h
  · rename_i calls' fw₁ hcall
    simp only [Option.some.injEq, Prod.mk.injEq] at h
    obtain ⟨rfl, rfl, rfl⟩ := h
    exact ⟨rfl, Or.inl ⟨calls', rfl, finish_callStep hcall⟩⟩
  · rename_i hcall
    simp only [Option.some.injEq, Prod.mk.injEq] at h
    obtain ⟨rfl, rfl, rfl⟩ := h
    exact ⟨rfl, Or.inr ⟨rfl, (finish_of_none hcall).symm⟩⟩

end Cleaner

/-- the server as it is now -/
theorem reaches_now {s u : Server} (h : s.now ≤ u.now) : Reaches step s { s with now := u.now } := by
  refine reaches_of_step (o := .wait (u.now - s.now).toNat) ?_
  have hnow : s.now + ((u.now - s.now).toNat : ℕ) = u.now := by omega
  simp only [step, hnow]

/-! ## The two lists -/

/-- what a list holds, when an entry is due, and what is done then -/
def ListId.Elem : ListId → Type
  | .mapping => Mapping
  | .banned => Ban

def ListId.time : (l : ListId) → l.Elem → ℤ
  | .mapping => Mapping.time
  | .banned => Ban.time

def ListId.action : (l : ListId) → l.Elem → List Call
  | .mapping => expiredMapCalls
  | .banned => expiredBanCalls

/-- the step of its cleaner, and the expiry of its head -/
def ListId.clean : ListId → ThreadOp
  | .mapping => .cleanMapping
  | .banned => .cleanBan

def ListId.expire : ListId → Op
  | .mapping => .expireMapping
  | .banned => .expireBan

def Server.entries (s : Server) : (l : ListId) → List l.Elem
  | .mapping => s.mappingList
  | .banned => s.bannedList

/-- the server with another list, and other rules -/
def Server.cleaned (s : Server) : (l : ListId) → List l.Elem → Firewall → Server
  | .mapping, list, fw => { s with mappingList := list, fw := fw }
  | .banned, list, fw => { s with bannedList := list, fw := fw }

def Threads.cleaner (t : Threads) : (l : ListId) → CleanerPc l.Elem
  | .mapping => t.mappingCleaner
  | .banned => t.banCleaner

def Threads.cleaned (t : Threads) : (l : ListId) → CleanerPc l.Elem → List l.Elem → Firewall → Threads
  | .mapping, pc, list, fw => { t with srv := t.srv.cleaned .mapping list fw, mappingCleaner := pc }
  | .banned, pc, list, fw => { t with srv := t.srv.cleaned .banned list fw, banCleaner := pc }

theorem threadStep_clean {t t' : Threads} {l : ListId} (h : threadStep t l.clean = some t') :
    ∃ pc list fw, cleanerStep l.time l.action t.srv.now (t.srv.entries l) t.srv.fw (t.cleaner l) = some (pc, list, fw) ∧
      t' = t.cleaned l pc list fw := by
  cases l with
  | mapping =>
    obtain ⟨⟨pc, list, fw⟩, hc, rfl⟩ := Option.map_eq_some_iff.1 h
    exact ⟨pc, list, fw, hc, rfl⟩
  | banned =>
    obtain ⟨⟨pc, list, fw⟩, hc, rfl⟩ := Option.map_eq_some_iff.1 h
    exact ⟨pc, list, fw, hc, rfl⟩

theorem step_expire {s : Server} {l : ListId} {elm : l.Elem} {rest : List l.Elem} (h : s.entries l = elm :: rest)
    (hdue : Due l.time s.now elm) : step s l.expire = some (s.cleaned l rest (makeCalls (l.action elm) s.fw)) := by
  cases l with
  | mapping =>
    change s.mappingList = elm :: rest at h
    have hcalls := congrArg (fun fw => some (s.cleaned .mapping rest fw)) (makeCalls_expiredMap elm s.fw).symm
    simp only [ListId.expire, step, h]
    exact (if_pos hdue).trans hcalls
  | banned =>
    change s.bannedList = elm :: rest at h
    have hcalls := congrArg (fun fw => some (s.cleaned .banned rest fw)) (makeCalls_expiredBan elm s.fw).symm
    simp only [ListId.expire, step, h]
    exact (if_pos hdue).trans hcalls

theorem CleanersSound.sound {t : Threads} (h : CleanersSound t) (l : ListId) :
    Sound l.time t.srv.now (t.srv.entries l) (t.cleaner l) := by
  cases l with
  | mapping => exact h.mapping
  | banned => exact h.ban

theorem Untouched.entries {s u : Server} (h : Untouched s u) (l : ListId) : u.entries l = s.entries l := by
  cases l with
  | mapping => exact h.mappings
  | banned => exact h.bans

theorem untouched_of_entries {s u : Server} (hnow : s.now ≤ u.now) (h : ∀ l, u.entries l = s.entries l)
    (hacks : List.Forall₂ Ack.SentBy s.acks u.acks) : Untouched s u :=
  ⟨hnow, h .mapping, h .banned, hacks⟩

@[simp] theorem entries_cleaned (s : Server) (l : ListId) (list : List l.Elem) (fw : Firewall) :
    (s.cleaned l list fw).entries l = list := by
  cases l <;> rfl

theorem entries_cleaned_of_ne (s : Server) {l l' : ListId} (h : l' ≠ l) (list : List l.Elem) (fw : Firewall) :
    (s.cleaned l list fw).entries l' = s.entries l' := by
  cases l <;> cases l' <;> first | rfl | exact absurd rfl h

/-- what else the server with another list has -/
theorem cleaned_frame (s : Server) (l : ListId) (list : List l.Elem) (fw : Firewall) :
    (s.cleaned l list fw).now = s.now ∧ (s.cleaned l list fw).fw = fw ∧ (s.cleaned l list fw).acks = s.acks := by
  cases l <;> exact ⟨rfl, rfl, rfl⟩

theorem cleaned_self (s : Server) (l : ListId) : s.cleaned l (s.entries l) s.fw = s := by
  cases l <;> rfl

theorem threads_cleaned (t : Threads) (l : ListId) (pc : CleanerPc l.Elem) (list : List l.Elem) (fw : Firewall) :
    (t.cleaned l pc list fw).srv = t.srv.cleaned l list fw ∧ (t.cleaned l pc list fw).handler = t.handler ∧
      (t.cleaned l pc list fw).cleaner l = pc ∧ ∀ l' ≠ l, (t.cleaned l pc list fw).cleaner l' = t.cleaner l' := by
  cases l with
  | mapping => exact ⟨rfl, rfl, rfl, fun l' h => by cases l' <;> first | rfl | exact absurd rfl h⟩
  | banned => exact ⟨rfl, rfl, rfl, fun l' h => by cases l' <;> first | rfl | exact absurd rfl h⟩

/-- how far the cleaner of a list has come with the entry that it popped in `s` -/
structure Expiring (l : ListId) (s u : Server) (elm : l.Elem) (calls : Calls) : Prop where
  now : s.now ≤ u.now
  popped : s.entries l = elm :: u.entries l
  due : Due l.time u.now elm
  others : ∀ l' ≠ l, u.entries l' = s.entries l'
  acks : List.Forall₂ Ack.SentBy s.acks u.acks
  rules : calls.finish u.fw = makeCalls (l.action elm) s.fw

/-- a step of the calls -/
theorem Expiring.acts {l : ListId} {s u : Server} {elm : l.Elem} {calls calls' : Calls} {fw : Firewall}
    (h : Expiring l s u elm calls) (hrules : calls'.finish fw = calls.finish u.fw) :
    Expiring l s (u.cleaned l (u.entries l) fw) elm calls' := by
  obtain ⟨hnow, hfw, hacks⟩ := cleaned_frame u l (u.entries l) fw
  refine ⟨hnow ▸ h.now, ?_, hnow ▸ h.due, ?_, hacks ▸ h.acks, ?_⟩
  · rw [entries_cleaned]
    exact h.popped
  · intro l' hl
    rw [entries_cleaned_of_ne _ hl]
    exact h.others l' hl
  · rw [hfw, hrules, h.rules]

/-- the entry has been expired when the calls are made -/
theorem Expiring.ended {l : ListId} {s u : Server} {elm : l.Elem} {calls : Calls} (h : Expiring l s u elm calls) :
    ∃ s', Reaches step s s' ∧ Handling s' (u.cleaned l (u.entries l) (calls.finish u.fw)) .idle := by
  obtain ⟨hnow, hfw, hacks⟩ := cleaned_frame u l (u.entries l) (calls.finish u.fw)
  have hentries : Server.entries { s with now := u.now } l = elm :: u.entries l := by cases l <;> exact h.popped
  have hs' := step_expire hentries h.due
  obtain ⟨hnow', hfw', hacks'⟩ := cleaned_frame { s with now := u.now } l (u.entries l) (makeCalls (l.action elm) s.fw)
  refine ⟨_, (reaches_now h.now).trans (reaches_of_step hs'), untouched_of_entries ?_ ?_ ?_, ?_⟩
  · rw [hnow, hnow']
  · intro l'
    by_cases hl : l' = l
    · subst hl
      rw [entries_cleaned, entries_cleaned]
    · rw [entries_cleaned_of_ne _ hl, entries_cleaned_of_ne _ hl, h.others l' hl]
      cases l' <;> rfl
  · rw [hacks, hacks']
    exact h.acks
  · rw [hfw, hfw', h.rules]

/-! ## One thread at work -/

/-- who is at work, and how far he has come with what he began when the server was in state `s` -/
inductive Works (t : Threads) (s : Server) : Prop
  /-- a handler, or nobody -/
  | handler (i : ℕ) (others : ∀ j, j ≠ i → t.handler j = .idle) (cleaners : ∀ l, ¬ (t.cleaner l).Acting)
      (handling : Handling s t.srv (t.handler i))
  | cleaner (l : ListId) (idle : ∀ j, t.handler j = .idle) (others : ∀ l' ≠ l, ¬ (t.cleaner l').Acting) (elm : l.Elem)
      (calls : Calls) (acting : t.cleaner l = .acting elm (some elm) calls) (expiring : Expiring l s t.srv elm calls)

theorem not_atWork {t : Threads} (h : ¬ AtWork t) :
    (∀ i, t.handler i = .idle) ∧ ∀ l, ¬ (t.cleaner l).Acting := by
  simp only [AtWork, not_or, not_exists, not_not] at h
  obtain ⟨hidle, hmapping, hban⟩ := h
  refine ⟨hidle, ?_⟩
  intro l
  cases l with
  | mapping => exact hmapping
  | banned => exact hban

/-- nobody is at work -/
theorem Works.rest {t : Threads} {s : Server} (h : Works t s) (hrest : ¬ AtWork t) : Handling s t.srv .idle := by
  obtain ⟨hidle, hcleaners⟩ := not_atWork hrest
  cases h with
  | handler i others cleaners handling => exact hidle i ▸ handling
  | cleaner l idle others elm calls acting expiring => exact absurd (acting ▸ trivial) (hcleaners l)

theorem begins_clean {t : Threads} {l : ListId} {elm : l.Elem} (h : t.cleaner l = .popping elm) : Begins t l.clean := by
  cases l with
  | mapping => exact ⟨elm, h⟩
  | banned => exact ⟨elm, h⟩

theorem serial_clean {t t' : Threads} {s : Server} {l : ListId} (hsound : CleanersSound t) (h : Works t s)
    (hone : OneAtATime t l.clean) (hs : threadStep t l.clean = some t') : ∃ s', Reaches step s s' ∧ Works t' s' := by
  obtain ⟨pc, list, fw, hc, rfl⟩ := threadStep_clean hs
  obtain ⟨hsrv, hhandler, hself, hother⟩ := threads_cleaned t l pc list fw
  obtain ⟨hnow, hfw, hacks⟩ := cleaned_frame t.srv l list fw
  have hothers {k : ListId} (hk : k ≠ l) (hacts : ¬ (t.cleaner k).Acting) :
      ¬ ((t.cleaned l pc list fw).cleaner k).Acting := by rwa [hother k hk]
  have hcleaner {k : ListId} (hpc : ¬ pc.Acting) (hacts : k ≠ l → ¬ (t.cleaner k).Acting) :
      ¬ ((t.cleaned l pc list fw).cleaner k).Acting := by
    by_cases hk : k = l
    · subst hk
      rwa [hself]
    · exact hothers hk (hacts hk)
  by_cases hpop : ∃ elm, t.cleaner l = .popping elm
  · obtain ⟨elm, hpc⟩ := hpop
    have hrest := hone (begins_clean hpc)
    obtain ⟨hidle, hcleaners⟩ := not_atWork hrest
    obtain ⟨hsame, hrules⟩ := h.rest hrest
    have hknown := hsound.sound l
    rw [hpc] at hc hknown
    obtain ⟨hlist, hdue, rfl, rfl⟩ := cleanerStep_pops hc hknown
    refine ⟨s, Reaches.refl step s, .cleaner l (fun j => by rw [hhandler, hidle])
      (fun k hk => hothers hk (hcleaners k)) elm _ hself ?_⟩
    rw [hsrv]
    refine ⟨hnow ▸ hsame.now, ?_, hnow ▸ hdue, ?_, hacks ▸ hsame.acks, ?_⟩
    · rw [entries_cleaned, ← hsame.entries l, hlist]
    · intro l' hl
      rw [entries_cleaned_of_ne _ hl, hsame.entries]
    · rw [hfw, hrules]
      rfl
  · cases h with
    | handler i others cleaners handling =>
      obtain ⟨rfl, rfl, hacts⟩ := cleanerStep_looks hc (cleaners l) (not_exists.1 hpop)
      rw [cleaned_self] at hsrv
      refine ⟨s, Reaches.refl step s, .handler i ?_ (fun k => hcleaner hacts fun _ => cleaners k) ?_⟩
      · rwa [hhandler]
      · rwa [hsrv, hhandler]
    | cleaner l' idle others elm calls acting expiring =>
      by_cases hl : l' = l
      · subst hl
        rw [acting] at hc
        obtain ⟨rfl, ⟨calls', rfl, hrules⟩ | ⟨rfl, rfl⟩⟩ := cleanerStep_acts hc
        · refine ⟨s, Reaches.refl step s, .cleaner l' (fun j => by rw [hhandler, idle])
            (fun k hk => hothers hk (others k hk)) elm calls' hself ?_⟩
          rw [hsrv]
          exact expiring.acts hrules
        · obtain ⟨s', hreach, hended⟩ := expiring.ended
          refine ⟨s', hreach, .handler 0 (fun j _ => by rw [hhandler, idle]) (fun k => hcleaner id (others k)) ?_⟩
          rwa [hsrv, hhandler, idle]
      · obtain ⟨rfl, rfl, hacts⟩ := cleanerStep_looks hc (others l fun h => hl h.symm) (not_exists.1 hpop)
        rw [cleaned_self] at hsrv
        refine ⟨s, Reaches.refl step s, .cleaner l' (fun j => by rw [hhandler, idle])
          (fun k hk => hcleaner hacts fun _ => others k hk) elm calls ?_ ?_⟩
        · rw [hother l' hl, acting]
        · rwa [hsrv]

/-- **A step of the threads.** Unless something is begun out of turn, the server follows it. -/
theorem serial_step {t t' : Threads} {o : ThreadOp} {s : Server} (hsound : CleanersSound t) (h : Works t s)
    (hone : OneAtATime t o) (hs : threadStep t o = some t') : ∃ s', Reaches step s s' ∧ Works t' s' := by
  have hstay (hw : Works t' s) : ∃ s', Reaches step s s' ∧ Works t' s' := ⟨s, Reaches.refl step s, hw⟩
  cases o with
  | wait d =>
    obtain rfl := Option.some.inj hs
    have hnow : t.srv.now ≤ t.srv.now + d := le_add_of_nonneg_right d.cast_nonneg
    cases h with
    | handler i others cleaners handling => exact hstay (.handler i others cleaners (handling.later hnow))
    | cleaner l idle others elm calls acting expiring =>
      obtain ⟨hle, hpopped, hdue, hothers, hacks, hrules⟩ := expiring
      exact hstay (.cleaner l idle others elm calls acting
        ⟨hle.trans hnow, hpopped, hdue.trans hnow, hothers, hacks, hrules⟩)
  | recvAdd i ip uninit =>
    have hrest : ¬ AtWork t := hone trivial
    obtain ⟨hidle, hcleaners⟩ := not_atWork hrest
    obtain ⟨-, rfl⟩ := threadStep_recvAdd hs
    refine hstay (.handler i ?_ hcleaners ?_)
    · intro j hj
      rw [setHandler_other t hj, hidle]
    · rw [setHandler_self]
      exact ⟨h.rest hrest, uninit, ip, rfl⟩
  | recvBan i ip =>
    have hrest : ¬ AtWork t := hone trivial
    obtain ⟨hidle, hcleaners⟩ := not_atWork hrest
    obtain ⟨-, rfl⟩ := threadStep_recvBan hs
    refine hstay (.handler i ?_ hcleaners ?_)
    · intro j hj
      rw [setHandler_other t hj, hidle]
    · rw [setHandler_self]
      exact ⟨(h.rest hrest).1, congrArg (makeCalls _) (h.rest hrest).2⟩
  | handle i rand =>
    obtain ⟨pc, srv, hstep, rfl⟩ := threadStep_handle hs
    have hbusy : t.handler i ≠ .idle := by
      intro hidle
      rw [hidle] at hstep
      cases hstep
    cases h with
    | handler j others cleaners handling =>
      obtain rfl : i = j := by
        by_contra hij
        exact hbusy (others i hij)
      obtain ⟨s', hreach, hhandling⟩ := handling_step handling hstep
      refine ⟨s', hreach, .handler i ?_ cleaners ?_⟩
      · intro j hj
        rw [setHandler_other t hj, others j hj]
      · rw [setHandler_self]
        exact hhandling
    | cleaner l idle others elm calls acting expiring => exact absurd (idle i) hbusy
  | cleanMapping => exact serial_clean (l := .mapping) hsound h hone hs
  | cleanBan => exact serial_clean (l := .banned) hsound h hone hs

/-- the server just after main's set-up, as the threads find it -/
def startState (now : ℤ) (fw : Firewall) : Server := ⟨now, fw, [], [], []⟩

theorem works_start (now : ℤ) (fw : Firewall) : Works (startThreads now fw) (startState now fw) :=
  .handler 0 (fun _ _ => rfl) (fun l => by cases l <;> exact id) ⟨Untouched.refl _, rfl⟩

theorem sameServer_now {s u : Server} (h : Handling s u .idle) : SameServer { s with now := u.now } u :=
  ⟨rfl, h.2, h.1.mappings, h.1.bans, h.1.acks⟩

/-- **One thread at a time.** In every run of handlers and cleaners in which each takes up its request, or pops its
entry, only while nobody is at work: whenever nobody is at work, clock, tables, lists and ACKs are those of a run of the
one-at-a-time server, but for the time between a server's ACK and the sending of it. -/
theorem serial_refines (now : ℤ) (fw : Firewall) {ops : List ThreadOp} {t : Threads}
    (h : run threadStep (startThreads now fw) ops = some t)
    (hone : EveryStep threadStep (fun t o _ => OneAtATime t o) (startThreads now fw) ops) (hrest : ¬ AtWork t) :
    ∃ s, Reaches step (startState now fw) s ∧ SameServer s t.srv := by
  have hstep : ∀ t o t' s, CleanersSound t ∧ Works t s → OneAtATime t o → threadStep t o = some t' →
      ∃ s', Reaches step s s' ∧ CleanersSound t' ∧ Works t' s' := by
    intro t o t' s hw hc hs
    obtain ⟨s', hreach, hw'⟩ := serial_step hw.1 hw.2 hc hs
    exact ⟨s', hreach, cleanersSound_step t o t' hw.1 hs, hw'⟩
  have hstart : CleanersSound (startThreads now fw) ∧ Works (startThreads now fw) (startState now fw) :=
    ⟨⟨trivial, trivial⟩, works_start now fw⟩
  obtain ⟨s, hreach, -, hworks⟩ := reaches_of_simulates hstep hstart h hone
  have hended := hworks.rest hrest
  exact ⟨_, hreach.trans (reaches_now hended.1.now), sameServer_now hended⟩

/-- a BAN request, answered a second after its entry is stamped -/
def serialRun : List ThreadOp :=
  [.recvBan 1 clientA, .handle 1 0, .handle 1 0, .handle 1 0, .handle 1 0, .handle 1 0, .wait 1, .handle 1 0]

theorem serial_refines_ban : ∃ t s, run threadStep (startThreads 0 bootServer.fw) serialRun = some t ∧
    t.srv.acks = [.ban clientA 7 1] ∧ t.srv.bannedList = [⟨0, clientA⟩] ∧
    Reaches step (startState 0 bootServer.fw) s ∧ SameServer s t.srv := by
  have hrun : run threadStep (startThreads 0 bootServer.fw) serialRun = some _ := rfl
  have hidle : ¬ AtWork (startThreads 0 bootServer.fw) := by simp [AtWork, startThreads, CleanerPc.Acting]
  have hone : EveryStep threadStep (fun t o _ => OneAtATime t o) (startThreads 0 bootServer.fw) serialRun := by
    refine (everyStep_cons_some threadStep _ rfl _).2 ⟨fun _ => hidle, ?_⟩
    refine everyStep_of_forall threadStep ?_ _
    intro o ho t _ hbegins
    simp only [List.mem_cons, List.not_mem_nil, or_false] at ho
    rcases ho with rfl | rfl | rfl | rfl | rfl | rfl | rfl <;> exact hbegins.elim
  have hended : ∀ t, run threadStep (startThreads 0 bootServer.fw) serialRun = some t → ¬ AtWork t := by
    intro t ht
    obtain rfl := Option.some.inj (hrun.symm.trans ht)
    rintro (⟨i, hi⟩ | h | h)
    · apply hi
      by_cases h1 : i = 1
      · subst h1
        rfl
      · iterate 7
          refine (Function.update_of_ne h1 _ _).trans ?_
        rfl
    · exact h
    · exact h
  obtain ⟨s, hreach, hsame⟩ := serial_refines 0 bootServer.fw hrun hone (hended _ hrun)
  exact ⟨_, s, hrun, rfl, rfl, hreach, hsame⟩

end NetSec.NatServer
