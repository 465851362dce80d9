/-
What does a failing send do to the server? (NAT/NATServer.c, lines 371-416, 489-504 and 681-705.)

send_all sends until the whole message is out. Its docstring says that it returns 1 when a send was not successful; the
code calls `exit(1)` instead, which ends the process: all handlers, both cleaners, both lists, with every rule in place.

`Process` is the threads of the server and whether the process still runs. A reply is one step, with the values that
its calls of `send` return (`sendAll`); a message with an unknown command gets a reply too, and a read that fails or
returns nothing is passed over.

- `sendAll_exits_iff`: send_all ends the process exactly when some `send` returns a negative number;
- `replies_isolated_iff`: in a run every reply leaves the server running, with its lists, rules, cleaners and other
  handlers as they were and every other request about to be answered, exactly when no send fails;
- `process_run`: without a failing send the threads run as they do on their own; `exited_run`: after one, nothing runs;
- `reset_ends_server`: one reset connection ends the server with another request half done and a ban in force.
-/
import NetSec.NatServer.Cleaning
import NetSec.NatServer.Requests

namespace NetSec.NatServer

open NetSec.Run

/-! ## Model -/

inductive SendEnd where
  | returned
  /-- exit(1) -/
  | exited
deriving DecidableEq, Repr

/-- the loop of send_all, over what its calls of `send` return; `none` when these are too few or too many -/
def sendAll (messageSize : ℤ) : ℤ → List ℤ → Option SendEnd
  | _, [] => none
  | sent, bytes :: rest =>
    if bytes < 0 then if rest = [] then some .exited else none
    else if bytes = 0 then if rest = [] then some .returned else none
    else if sent + bytes < messageSize then sendAll messageSize (sent + bytes) rest
    else if rest = [] then some .returned else none

/-- the reply a handler is about to send -/
def Pc.reply : Pc → Option Text
  | .addReply _ sm => some (ackText sm.mappedIP sm.mapTTL)
  | .banReply ip => some (ackText ip (expirationTimeSeconds + gracePeriodSeconds))
  | _ => none

structure Process where
  threads : Threads
  running : Bool

inductive ProcessOp where
  /-- any step of a thread but a reply -/
  | run (o : ThreadOp)
  /-- handler `i` sends its reply; `bytes` are the values that `send` returns -/
  | reply (i : ℕ) (bytes : List ℤ)
  /-- connection `i` asks for an unknown command, and gets its reply -/
  | unknown (i : ℕ) (bytes : List ℤ)
  /-- a read on connection `i` fails or returns nothing -/
  | emptyRead (i : ℕ)
deriving DecidableEq, Repr

/-- is the step of a thread the sending of a reply? -/
def isReply (t : Threads) : ThreadOp → Bool
  | .handle i _ => (t.handler i).reply.isSome
  | _ => false

/-- the process after send_all, if it returns as `next` -/
def afterSend (p : Process) (next : Option Threads) : SendEnd → Option Process
  | .exited => some { p with running := false }
  | .returned => next.map fun t => { p with threads := t }

def processStep (p : Process) (o : ProcessOp) : Option Process :=
  if p.running then
    match o with
    | .run o => if isReply p.threads o then none else (threadStep p.threads o).map fun t => { p with threads := t }
    | .reply i bytes =>
      (p.threads.handler i).reply.bind fun resp =>
        (sendAll resp.length 0 bytes).bind (afterSend p (threadStep p.threads (.handle i 0)))
    | .unknown i bytes =>
      if p.threads.handler i = .idle then
        (sendAll (ackText nullText 0).length 0 bytes).bind (afterSend p (some p.threads))
      else none
    | .emptyRead i => if p.threads.handler i = .idle then some p else none
  else none

/-- whose step it is -/
def ProcessOp.connection : ProcessOp → Option ℕ
  | .run (.handle i _) => some i
  | .reply i _ => some i
  | .unknown i _ => some i
  | .emptyRead i => some i
  | _ => none

/-- what `send` returned during the step -/
def ProcessOp.sends : ProcessOp → List ℤ
  | .reply _ bytes => bytes
  | .unknown _ bytes => bytes
  | _ => []

/-! ## Properties -/

/-- the step has left the server running, and nothing but connection `i` has been touched -/
structure Isolated (p : Process) (i : ℕ) (p' : Process) : Prop where
  running : p'.running = true
  mappings : p'.threads.srv.mappingList = p.threads.srv.mappingList
  bans : p'.threads.srv.bannedList = p.threads.srv.bannedList
  rules : p'.threads.srv.fw = p.threads.srv.fw
  mappingCleaner : p'.threads.mappingCleaner = p.threads.mappingCleaner
  banCleaner : p'.threads.banCleaner = p.threads.banCleaner
  others : ∀ j ≠ i, p'.threads.handler j = p.threads.handler j
  /-- every other request goes on -/
  answered : ∀ j ≠ i, p.threads.handler j ≠ .idle → ∃ o p'', o.connection = some j ∧ processStep p' o = some p''

/-- the sending of a reply touches its own connection only, whatever becomes of it -/
def RepliesIsolated (p : Process) (o : ProcessOp) (p' : Process) : Prop :=
  ∀ i bytes, o = .reply i bytes ∨ o = .unknown i bytes → Isolated p i p'

/-- no send of the step fails -/
def NoSendFails (o : ProcessOp) : Prop := ∀ bytes ∈ o.sends, 0 ≤ bytes

/-! ## send_all -/

/-- **send_all ends the process exactly when a send fails.** -/
theorem sendAll_exits_iff {messageSize sent : ℤ} {bytes : List ℤ} {r : SendEnd}
    (h : sendAll messageSize sent bytes = some r) : r = .exited ↔ ∃ b ∈ bytes, b < 0 := by
  induction bytes generalizing sent with
  | nil => cases h
  | cons b rest ih =>
    simp only [sendAll] at h
    split_ifs at h with hneg hrest hzero hrest hmore hrest
    · obtain rfl := Option.some.inj h
      exact iff_of_true rfl ⟨b, List.mem_cons_self, hneg⟩
    · obtain rfl := Option.some.inj h
      simp [hrest, hneg]
    · rw [ih h]
      simp [hneg]
    · obtain rfl := Option.some.inj h
      simp [hrest, hneg]

/-- one send of the whole message -/
theorem sendAll_whole {messageSize : ℤ} (h : 0 < messageSize) :
    sendAll messageSize 0 [messageSize] = some .returned := by
  simp [sendAll, h.not_gt, h.ne']

theorem ackText_pos (mappedIP : Text) (mappingTTL : ℤ) : (0 : ℤ) < (ackText mappedIP mappingTTL).length := by
  have hack : "ACK;".toList ≠ [] := by decide
  have hne : ackText mappedIP mappingTTL ≠ [] :=
    List.append_ne_nil_of_left_ne_nil
      (List.append_ne_nil_of_left_ne_nil (List.append_ne_nil_of_left_ne_nil hack _) _) _
  exact Int.natCast_pos.2 (List.length_pos_iff.2 hne)

/-! ## What each step does -/

theorem reply_pos {pc : Pc} {resp : Text} (h : pc.reply = some resp) : (0 : ℤ) < resp.length := by
  cases pc with
  | addReply isp sm =>
    obtain rfl := Option.some.inj h
    exact ackText_pos _ _
  | banReply ip =>
    obtain rfl := Option.some.inj h
    exact ackText_pos _ _
  | _ => cases h

/-- **A running server goes on** with every request it has begun. -/
theorem busy_goes_on {p : Process} (hrun : p.running = true) {j : ℕ} (hj : p.threads.handler j ≠ .idle) :
    ∃ o p'', o.connection = some j ∧ processStep p o = some p'' := by
  obtain ⟨pc, srv, hs⟩ := handlerStep_busy hj 0 p.threads.srv
  have hthread : threadStep p.threads (.handle j 0) = some (p.threads.setHandler j pc srv) := by
    simp only [threadStep, hs, Option.map_some]
  cases hreply : (p.threads.handler j).reply with
  | none =>
    refine ⟨.run (.handle j 0), { p with threads := p.threads.setHandler j pc srv }, rfl, ?_⟩
    simp [processStep, hrun, isReply, hreply, hthread]
  | some resp =>
    refine ⟨.reply j [(resp.length : ℤ)], { p with threads := p.threads.setHandler j pc srv }, rfl, ?_⟩
    simp [processStep, hrun, hreply, sendAll_whole (reply_pos hreply), afterSend, hthread]

theorem isolated_of_frame {p : Process} {t : Threads} {i : ℕ} (hrun : p.running = true)
    (hmappings : t.srv.mappingList = p.threads.srv.mappingList) (hbans : t.srv.bannedList = p.threads.srv.bannedList)
    (hrules : t.srv.fw = p.threads.srv.fw) (hmapping : t.mappingCleaner = p.threads.mappingCleaner)
    (hban : t.banCleaner = p.threads.banCleaner) (hothers : ∀ j ≠ i, t.handler j = p.threads.handler j) :
    Isolated p i { p with threads := t } := by
  refine ⟨hrun, hmappings, hbans, hrules, hmapping, hban, hothers, ?_⟩
  intro j hj hbusy
  rw [← hothers j hj] at hbusy
  exact busy_goes_on (p := ⟨t, p.running⟩) hrun hbusy

/-- what the reply itself changes: the acknowledgements, and the handler is idle again -/
theorem handlerStep_reply {rand : ℕ} {s s' : Server} {pc pc' : Pc} {resp : Text} (hreply : pc.reply = some resp)
    (h : handlerStep rand s pc = some (pc', s')) : pc' = .idle ∧ ∃ acks, s' = { s with acks := acks } := by
  cases pc with
  | addReply isp sm =>
    simp only [handlerStep, Option.some.injEq, Prod.mk.injEq] at h
    exact ⟨h.1.symm, _, h.2.symm⟩
  | banReply ip =>
    simp only [handlerStep, Option.some.injEq, Prod.mk.injEq] at h
    exact ⟨h.1.symm, _, h.2.symm⟩
  | _ => cases hreply

/-- the sends of a reply, and what comes after them -/
theorem processStep_sent {p p' : Process} {o : ProcessOp} {i : ℕ} {bytes : List ℤ}
    (ho : o = .reply i bytes ∨ o = .unknown i bytes) (h : processStep p o = some p') :
    p.running = true ∧ ∃ size next r, sendAll size 0 bytes = some r ∧ afterSend p next r = some p' ∧
      ∀ t, next = some t → Isolated p i { p with threads := t } := by
  have hrun : p.running = true := by
    by_contra hstop
    simp [processStep, hstop] at h
  refine ⟨hrun, ?_⟩
  rcases ho with rfl | rfl
  · simp only [processStep, hrun, if_true, Option.bind_eq_some_iff] at h
    obtain ⟨resp, hreply, r, hsend, hafter⟩ := h
    refine ⟨_, _, r, hsend, hafter, ?_⟩
    intro t ht
    obtain ⟨pc, srv, hs, rfl⟩ := threadStep_handle ht
    obtain ⟨-, acks, rfl⟩ := handlerStep_reply hreply hs
    exact isolated_of_frame hrun rfl rfl rfl rfl rfl fun j hj => setHandler_other _ hj _ _
  · simp only [processStep, hrun, if_true] at h
    split_ifs at h with hidle
    obtain ⟨r, hsend, hafter⟩ := Option.bind_eq_some_iff.1 h
    refine ⟨_, _, r, hsend, hafter, ?_⟩
    intro t ht
    obtain rfl := Option.some.inj ht
    exact isolated_of_frame hrun rfl rfl rfl rfl rfl fun j _ => rfl

/-- **One reply.** It is isolated exactly when no send fails; then the server has ended. -/
theorem isolated_iff {p p' : Process} {o : ProcessOp} {i : ℕ} {bytes : List ℤ}
    (ho : o = .reply i bytes ∨ o = .unknown i bytes) (h : processStep p o = some p') :
    (Isolated p i p' ↔ ∀ b ∈ bytes, 0 ≤ b) ∧ ((∃ b ∈ bytes, b < 0) → p'.running = false) := by
  obtain ⟨hrun, size, next, r, hsend, hafter, hnext⟩ := processStep_sent ho h
  have hexit := sendAll_exits_iff hsend
  cases r with
  | exited =>
    obtain rfl := Option.some.inj hafter
    refine ⟨iff_of_false ?_ ?_, fun _ => rfl⟩
    · intro hiso
      cases hiso.running
    · intro hall
      obtain ⟨b, hb, hneg⟩ := hexit.1 rfl
      exact absurd (hall b hb) (not_le.2 hneg)
  | returned =>
    have hnone : ¬ ∃ b ∈ bytes, b < 0 := fun hneg => by cases hexit.2 hneg
    obtain ⟨t, ht, rfl⟩ := Option.map_eq_some_iff.1 hafter
    refine ⟨iff_of_true (hnext t ht) ?_, fun hneg => absurd hneg hnone⟩
    intro b hb
    by_contra hneg
    exact hnone ⟨b, hb, not_le.1 hneg⟩

/-! ## Runs -/

/-- **Replies are isolated, exactly.** In a run every reply leaves the server running, and everything but its own
connection untouched, if and only if no send fails during the run. -/
theorem replies_isolated_iff (p : Process) (ops : List ProcessOp) :
    EveryStep processStep RepliesIsolated p ops ↔ EveryStep processStep (fun _ o _ => NoSendFails o) p ops := by
  apply everyStep_iff processStep (I := fun _ => True) _ trivial
  intro s o t _ hs
  refine ⟨?_, fun _ => trivial⟩
  cases o with
  | reply i bytes =>
    refine ⟨fun h => (isolated_iff (Or.inl rfl) hs).1.1 (h i bytes (Or.inl rfl)), ?_⟩
    rintro h j bytes' (ho | ho)
    · obtain ⟨rfl, rfl⟩ := ProcessOp.reply.inj ho
      exact (isolated_iff (Or.inl rfl) hs).1.2 h
    · cases ho
  | unknown i bytes =>
    refine ⟨fun h => (isolated_iff (Or.inr rfl) hs).1.1 (h i bytes (Or.inr rfl)), ?_⟩
    rintro h j bytes' (ho | ho)
    · cases ho
    · obtain ⟨rfl, rfl⟩ := ProcessOp.unknown.inj ho
      exact (isolated_iff (Or.inr rfl) hs).1.2 h
  | run o =>
    refine iff_of_true ?_ ?_
    · rintro i bytes (ho | ho) <;> cases ho
    · intro b hb
      cases hb
  | emptyRead i =>
    refine iff_of_true ?_ ?_
    · rintro i bytes (ho | ho) <;> cases ho
    · intro b hb
      cases hb

/-- **After a failed send nothing runs.** -/
theorem exited_run {p p' : Process} {o : ProcessOp} (h : processStep p o = some p') (hfail : ¬ NoSendFails o) :
    p'.running = false ∧ ∀ o', processStep p' o' = none := by
  have hneg : ∃ b ∈ o.sends, b < 0 := by
    simpa [NoSendFails] using hfail
  have hstop : p'.running = false := by
    cases o with
    | reply i bytes => exact (isolated_iff (Or.inl rfl) h).2 hneg
    | unknown i bytes => exact (isolated_iff (Or.inr rfl) h).2 hneg
    | run o => simp [ProcessOp.sends] at hneg
    | emptyRead i => simp [ProcessOp.sends] at hneg
  refine ⟨hstop, ?_⟩
  intro o'
  simp [processStep, hstop]

theorem processStep_reaches {p p' : Process} {o : ProcessOp} (h : processStep p o = some p') :
    Reaches threadStep p.threads p'.threads := by
  have hsame : Reaches threadStep p.threads p.threads := Reaches.refl threadStep _
  by_cases hrun : p.running = true
  · cases o with
    | run o =>
      simp only [processStep, hrun, if_true, Option.ite_none_left_eq_some] at h
      obtain ⟨-, h⟩ := h
      obtain ⟨t, ht, rfl⟩ := Option.map_eq_some_iff.1 h
      exact reaches_of_step ht
    | reply i bytes =>
      simp only [processStep, hrun, if_true, Option.bind_eq_some_iff] at h
      obtain ⟨resp, -, r, -, hafter⟩ := h
      cases r with
      | exited => exact Option.some.inj hafter ▸ hsame
      | returned =>
        obtain ⟨t, ht, rfl⟩ := Option.map_eq_some_iff.1 hafter
        exact reaches_of_step ht
    | unknown i bytes =>
      simp only [processStep, hrun, if_true, Option.ite_none_right_eq_some, Option.bind_eq_some_iff] at h
      obtain ⟨-, r, -, hafter⟩ := h
      cases r <;> exact Option.some.inj hafter ▸ hsame
    | emptyRead i =>
      simp only [processStep, hrun, if_true, Option.ite_none_right_eq_some, Option.some.injEq] at h
      rw [← h.2]
      exact hsame
  · simp [processStep, hrun] at h

/-- **The process does what the threads do**, as long as it runs -/
theorem process_run {p p' : Process} {ops : List ProcessOp} (h : run processStep p ops = some p') :
    Reaches threadStep p.threads p'.threads :=
  have hreach : Reaches processStep p p' := ⟨ops, h⟩
  hreach.map threadStep Process.threads fun _ _ _ => processStep_reaches

/-- a ban is made; another is begun; the connection of the first is reset before its reply -/
def resetBeforeReply : List ProcessOp :=
  [.run (.recvBan 0 clientA)] ++ List.replicate 5 (.run (.handle 0 0)) ++
    [.run (.recvBan 1 "10.4.11.18".toList), .run (.handle 1 0), .reply 0 [-1]]

/-- **One reset connection ends the server**, with the ban in force and the other request half done. -/
theorem reset_ends_server :
    (∃ p, run processStep ⟨startThreads 0 bootServer.fw, true⟩ resetBeforeReply = some p ∧ p.running = false ∧
      p.threads.srv.bannedList = [⟨0, clientA⟩] ∧ Rule.drop clientA ∈ p.threads.srv.fw.filter ∧
      p.threads.srv.fw.inputPolicy = .drop ∧ p.threads.handler 1 ≠ .idle ∧ ∀ o, processStep p o = none) ∧
    ¬ EveryStep processStep RepliesIsolated ⟨startThreads 0 bootServer.fw, true⟩ resetBeforeReply := by
  obtain ⟨p, hp, p', hp', hrest⟩ : ∃ p, run processStep ⟨startThreads 0 bootServer.fw, true⟩
        (resetBeforeReply.take 8) = some p ∧
      ∃ p', processStep p (.reply 0 [-1]) = some p' ∧ p'.running = false ∧
        p'.threads.srv.bannedList = [⟨0, clientA⟩] ∧ Rule.drop clientA ∈ p'.threads.srv.fw.filter ∧
        p'.threads.srv.fw.inputPolicy = .drop ∧ p'.threads.handler 1 ≠ .idle :=
    ⟨_, rfl, _, rfl, by decide, by decide, by decide, by decide, by decide⟩
  refine ⟨⟨p', ?_, hrest.1, hrest.2.1, hrest.2.2.1, hrest.2.2.2.1, hrest.2.2.2.2, ?_⟩, ?_⟩
  · rw [show resetBeforeReply = resetBeforeReply.take 8 ++ [.reply 0 [-1]] by decide, run_append, hp]
    simp [hp']
  · intro o
    simp [processStep, hrest.1]
  · intro h
    have hiso := h (resetBeforeReply.take 8) (.reply 0 [-1]) (by decide) p p' hp hp' 0 [-1] (Or.inl rfl)
    rw [hiso.running] at hrest
    exact absurd hrest.1 (by decide)

end NetSec.NatServer
