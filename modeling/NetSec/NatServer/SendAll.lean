/-
Does send_all report success truthfully? send_all (NAT/NATServer.c, lines 681-705) on the replies of handleRequest.

`Socket` is what the socket would take at each call of `send`, a negative number being an error; it takes no more than
it is offered. `sendAllOn` is the loop on a message: which bytes are handed over, what `send` returned, and what
send_all returns, `none` when it has called exit(1).

A `send` that takes nothing leaves the loop for the same `return 0` as the last byte does.

- `sendLoop_sendAll`: on the results that `send` gave, this is the send_all of the server's threads, so that it ends the
  process exactly at an error (`sendLoop_exits_iff`);
- `sendLoop_handed`: the loop ends, a prefix is handed over, and 0 is returned;
- `send_truthful_iff`: which is the truth exactly when the socket takes the whole message before it takes nothing;
- `cut_reply_reported_sent`: a reply of which four bytes are sent.
-/
import NetSec.NatServer.SendFailure

namespace NetSec.NatServer

open NetSec.Text

/-- what the socket would take at each call of `send` -/
abbrev Socket := ℕ → ℤ

/-- the first call -/
def Socket.send (socket : Socket) (buf : Text) : ℤ := min (socket 0) buf.length

/-- the calls behind it -/
def Socket.next (socket : Socket) : Socket := fun k => socket (k + 1)

structure SendRun where
  /-- the bytes that the socket has taken -/
  handed : Text
  /-- the results of `send` -/
  results : List ℤ
  /-- what send_all returns; `none` when it has ended the process -/
  ret : Option ℤ
deriving DecidableEq, Repr

/-- the loop, from `sent` bytes on -/
def sendLoop (message : Text) : ℕ → Socket → ℕ → Option SendRun
  | 0, _, _ => none
  | fuel + 1, socket, sent =>
    let buf := message.drop sent
    let bytes := socket.send buf
    if bytes < 0 then some ⟨[], [bytes], none⟩
    else if bytes = 0 then some ⟨[], [bytes], some 0⟩
    else
      let handed := buf.take bytes.toNat
      let sent := sent + bytes.toNat
      if sent < message.length then
        (sendLoop message fuel socket.next sent).map fun run => ⟨handed ++ run.handed, bytes :: run.results, run.ret⟩
      else some ⟨handed, [bytes], some 0⟩

def sendAllOn (socket : Socket) (message : Text) (fuel : ℕ) : Option SendRun := sendLoop message fuel socket 0

/-! ## What send_all should report -/

structure Truthful (message : Text) (run : SendRun) : Prop where
  inOrder : run.handed <+: message
  success : run.ret = some 0 ↔ run.handed = message
  failure : run.ret = some 1 ↔ run.handed ≠ message

/-- the loop ends, and what it returns is the truth -/
def ReportsTruthfully (socket : Socket) (message : Text) : Prop :=
  ∃ rounds, ∀ fuel, rounds < fuel → ∃ run, sendAllOn socket message fuel = some run ∧ Truthful message run

/-- the socket takes so many bytes before a call that takes none -/
def Takes (room : ℕ → ℕ) (size : ℕ) : Prop :=
  ∃ calls, (∀ k < calls, 0 < room k) ∧ size ≤ ∑ k ∈ Finset.range calls, room k

/-! ## The same send_all -/

/-- **On the results of `send`** this is the send_all of the threads. -/
theorem sendLoop_sendAll {message : Text} {fuel : ℕ} {socket : Socket} {sent : ℕ} {run : SendRun}
    (h : sendLoop message fuel socket sent = some run) :
    sendAll message.length sent run.results = some (if run.ret = none then .exited else .returned) := by
  induction fuel generalizing socket sent run with
  | zero => cases h
  | succ fuel ih =>
    simp only [sendLoop] at h
    split_ifs at h with hneg hzero hmore
    · obtain rfl := Option.some.inj h
      simp [sendAll, hneg]
    · obtain rfl := Option.some.inj h
      simp [sendAll, hzero]
    · obtain ⟨rest, hrest, rfl⟩ := Option.map_eq_some_iff.1 h
      have hsent : ((sent + (socket.send (message.drop sent)).toNat : ℕ) : ℤ) =
          sent + socket.send (message.drop sent) := by omega
      have hnext := ih hrest
      rw [hsent] at hnext
      have hmore' : (sent : ℤ) + socket.send (message.drop sent) < message.length := by omega
      simp only [sendAll, if_neg hneg, if_neg hzero, if_pos hmore', hnext]
    · obtain rfl := Option.some.inj h
      have hdone : ¬ (sent : ℤ) + socket.send (message.drop sent) < message.length := by omega
      simp [sendAll, hneg, hzero, hdone]

/-- with a socket that gives errors too -/
theorem sendLoop_exits_iff {message : Text} {fuel : ℕ} {socket : Socket} {sent : ℕ} {run : SendRun}
    (h : sendLoop message fuel socket sent = some run) : run.ret = none ↔ ∃ b ∈ run.results, b < 0 := by
  rw [← sendAll_exits_iff (sendLoop_sendAll h)]
  split_ifs with hret
  · exact iff_of_true hret rfl
  · exact iff_of_false hret (by decide)

/-! ## How much the socket takes -/

theorem takes_zero (room : ℕ → ℕ) : Takes room 0 := ⟨0, by simp, Nat.zero_le _⟩

/-- the first call takes none -/
theorem takes_stuck {room : ℕ → ℕ} (h : room 0 = 0) (size : ℕ) : Takes room size ↔ size = 0 := by
  constructor
  · intro htakes
    obtain ⟨calls, hpos, hsize⟩ := htakes
    cases calls with
    | zero => simpa using hsize
    | succ calls =>
      have hfirst := hpos 0 (Nat.succ_pos calls)
      omega
  · intro hsize
    rw [hsize]
    exact takes_zero room

/-- the first call takes some -/
theorem takes_next {room : ℕ → ℕ} (h : 0 < room 0) (size : ℕ) :
    Takes room size ↔ Takes (fun k => room (k + 1)) (size - room 0) := by
  constructor
  · intro htakes
    obtain ⟨calls, hpos, hsize⟩ := htakes
    cases calls with
    | zero =>
      have hzero : size = 0 := by simpa using hsize
      rw [hzero, Nat.zero_sub]
      exact takes_zero _
    | succ calls =>
      rw [Finset.sum_range_succ'] at hsize
      exact ⟨calls, fun k hk => hpos (k + 1) (Nat.succ_lt_succ hk), Nat.sub_le_iff_le_add.2 hsize⟩
  · intro htakes
    obtain ⟨calls, hpos, hsize⟩ := htakes
    refine ⟨calls + 1, ?_, ?_⟩
    · intro k hk
      cases k with
      | zero => exact h
      | succ k => exact hpos k (Nat.lt_of_succ_lt_succ hk)
    · rw [Finset.sum_range_succ']
      exact Nat.sub_le_iff_le_add.1 hsize

/-! ## What is handed over -/

/-- the run from a point where `buf` is left: 0 is returned, whatever the socket has taken of it -/
structure Handed (room : ℕ → ℕ) (buf : Text) (run : SendRun) : Prop where
  ret : run.ret = some 0
  inOrder : run.handed <+: buf
  whole : run.handed = buf ↔ Takes room buf.length

/-- one call that takes some -/
theorem Handed.step {room : ℕ → ℕ} {buf : Text} {run : SendRun} (hroom : 0 < room 0)
    (h : Handed (fun k => room (k + 1)) (buf.drop (room 0)) run) (bytes : ℤ) :
    Handed room buf ⟨buf.take (room 0) ++ run.handed, bytes :: run.results, run.ret⟩ := by
  refine ⟨h.ret, ?_, ?_⟩
  · have hprefix : buf.take (room 0) ++ run.handed <+: buf.take (room 0) ++ buf.drop (room 0) :=
      (List.prefix_append_right_inj _).2 h.inOrder
    rwa [List.take_append_drop] at hprefix
  · have hwhole : buf.take (room 0) ++ run.handed = buf ↔ run.handed = buf.drop (room 0) :=
      calc
        buf.take (room 0) ++ run.handed = buf ↔
            buf.take (room 0) ++ run.handed = buf.take (room 0) ++ buf.drop (room 0) := by
          rw [List.take_append_drop]
        _ ↔ run.handed = buf.drop (room 0) := List.append_right_inj _
    rw [hwhole, h.whole, takes_next hroom, List.length_drop]

/-- a call that takes none, for want of room or of bytes -/
theorem Handed.stuck {room : ℕ → ℕ} {buf : Text} (h : min (room 0) buf.length = 0) (results : List ℤ) :
    Handed room buf ⟨[], results, some 0⟩ := by
  refine ⟨rfl, List.nil_prefix, ?_⟩
  by_cases hroom : room 0 = 0
  · rw [takes_stuck hroom, List.length_eq_zero_iff]
    exact eq_comm
  · have hempty : buf = [] := List.length_eq_zero_iff.1 (by omega)
    rw [hempty]
    exact iff_of_true rfl (takes_zero room)

/-- a call that takes all that is left -/
theorem Handed.last {room : ℕ → ℕ} {buf : Text} (hne : buf ≠ []) (h : buf.length ≤ room 0) (results : List ℤ) :
    Handed room buf ⟨buf, results, some 0⟩ := by
  have hpos : 0 < buf.length := List.length_pos_iff.2 hne
  refine ⟨rfl, List.prefix_rfl, iff_of_true rfl ?_⟩
  rw [takes_next (by omega), Nat.sub_eq_zero_of_le h]
  exact takes_zero _

/-- **The loop ends**, with fewer rounds to go than bytes and one more. -/
theorem sendLoop_handed {message : Text} {fuel : ℕ} {room : ℕ → ℕ} {sent : ℕ}
    (hfuel : message.length - sent < fuel) :
    ∃ run, sendLoop message fuel (fun k => (room k : ℤ)) sent = some run ∧ Handed room (message.drop sent) run := by
  induction fuel generalizing room sent with
  | zero => exact absurd hfuel (Nat.not_lt_zero _)
  | succ fuel ih =>
    set buf := message.drop sent with hbuf
    have hlength : buf.length = message.length - sent := List.length_drop
    have hsend : Socket.send (fun k => (room k : ℤ)) buf = (min (room 0) buf.length : ℕ) := by
      rw [Socket.send, Nat.cast_min]
    simp only [sendLoop, ← hbuf, hsend, Int.toNat_natCast, Int.natCast_eq_zero]
    rw [if_neg (Int.not_lt.2 (Int.natCast_nonneg _))]
    split_ifs with hzero hmore
    · exact ⟨_, rfl, Handed.stuck hzero _⟩
    · -- what is left is more than the room there was
      have hroom : min (room 0) buf.length = room 0 := by omega
      rw [hroom] at hzero ⊢
      have hless : message.length - (sent + room 0) < fuel := by omega
      obtain ⟨rest, hrest, hhanded⟩ : ∃ rest,
          sendLoop message fuel (fun k => (room (k + 1) : ℤ)) (sent + room 0) = some rest ∧
            Handed (fun k => room (k + 1)) (message.drop (sent + room 0)) rest := ih hless
      rw [← List.drop_drop] at hhanded
      exact ⟨_, Option.map_eq_some_iff.2 ⟨rest, hrest, rfl⟩, hhanded.step (Nat.pos_of_ne_zero hzero) _⟩
    · have hroom : min (room 0) buf.length = buf.length := by omega
      have hne : buf ≠ [] := List.length_pos_iff.1 (by omega)
      rw [hroom, List.take_length]
      exact ⟨_, rfl, Handed.last hne (by omega) _⟩

theorem sendAllOn_handed (message : Text) (room : ℕ → ℕ) {fuel : ℕ} (hfuel : message.length < fuel) :
    ∃ run, sendAllOn (fun k => (room k : ℤ)) message fuel = some run ∧ Handed room message run :=
  sendLoop_handed (show message.length - 0 < fuel from hfuel)

/-! ## When the report is the truth -/

theorem Handed.truthful_iff {room : ℕ → ℕ} {message : Text} {run : SendRun} (h : Handed room message run) :
    Truthful message run ↔ Takes room message.length := by
  rw [← h.whole]
  constructor
  · intro htruth
    exact htruth.success.1 h.ret
  · intro hwhole
    refine ⟨h.inOrder, iff_of_true h.ret hwhole, iff_of_false ?_ (fun hcut => hcut hwhole)⟩
    rw [h.ret]
    decide

theorem reportsTruthfully_iff (message : Text) (room : ℕ → ℕ) :
    ReportsTruthfully (fun k => (room k : ℤ)) message ↔ Takes room message.length := by
  constructor
  · intro h
    obtain ⟨rounds, hrounds⟩ := h
    have hrounds' : rounds < max rounds message.length + 1 := by omega
    have hlength : message.length < max rounds message.length + 1 := by omega
    obtain ⟨run, hrun, htruth⟩ := hrounds _ hrounds'
    obtain ⟨run', hrun', hhanded⟩ := sendAllOn_handed message room hlength
    obtain rfl := Option.some.inj (hrun.symm.trans hrun')
    exact hhanded.truthful_iff.1 htruth
  · intro h
    refine ⟨message.length, fun fuel hfuel => ?_⟩
    obtain ⟨run, hrun, hhanded⟩ := sendAllOn_handed message room hfuel
    exact ⟨run, hrun, hhanded.truthful_iff.2 h⟩

/-- **send_all reports the truth, exactly.** For every message and whatever the socket takes at each call: the loop
ends, what was handed over is a prefix of the message, and send_all returns 0; and this is the truth if and only if the
calls of `send` before one that takes nothing have room for the whole message. -/
theorem send_truthful_iff (message : Text) (room : ℕ → ℕ) :
    (∃ rounds, ∀ fuel, rounds < fuel → ∃ run, sendAllOn (fun k => (room k : ℤ)) message fuel = some run ∧
      run.handed <+: message ∧ run.ret = some 0) ∧
    (ReportsTruthfully (fun k => (room k : ℤ)) message ↔
      ∃ calls, (∀ k < calls, 0 < room k) ∧ message.length ≤ ∑ k ∈ Finset.range calls, room k) := by
  refine ⟨⟨message.length, fun fuel hfuel => ?_⟩, reportsTruthfully_iff message room⟩
  obtain ⟨run, hrun, hhanded⟩ := sendAllOn_handed message room hfuel
  exact ⟨run, hrun, hhanded.inOrder, hhanded.ret⟩

/-- in two parts, when there is room for ten bytes at a time -/
example : (sendAllOn (fun _ => 10) (ackText clientA 60) 2).map (fun run => (run.handed, run.results)) =
    some (ackText clientA 60, [10, 7]) := by decide

/-- room for four bytes, then for none -/
def fourBytes (k : ℕ) : ℕ := if k = 0 then 4 else 0

/-- **A reply that is cut is reported as sent.** -/
theorem cut_reply_reported_sent :
    (∃ run, sendAllOn (fun k => (fourBytes k : ℤ)) (ackText clientA 60) 2 = some run ∧ run.handed = "ACK;".toList ∧
      run.handed ≠ ackText clientA 60 ∧ run.ret = some 0) ∧
    ¬ ReportsTruthfully (fun k => (fourBytes k : ℤ)) (ackText clientA 60) := by
  refine ⟨⟨_, rfl, by decide, by decide, rfl⟩, ?_⟩
  rw [reportsTruthfully_iff, takes_next (by decide), takes_stuck rfl]
  decide

end NetSec.NatServer
