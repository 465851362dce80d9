/-
Does a handler end with its connection? handleClientConnections and recv_all (NAT/NATServer.c, lines 371-416 and
651-679).

A read gives bytes, none of them at the end of the file, or it fails: `ReadResult`. recv_all tells a failure by its
result, which the loop does not look at; the end of the file, a failure and a piece that starts with a zero byte all
leave an empty message, on which the loop goes on. It is left when `quit` is read as set, before or after a read, and
only then is the socket closed.

`handlerLoop` is the loop over the rounds that are to come. `Connection` is what the reads of one connection give: any
pieces, and an ending that then stays. Replies are taken to be sent.

- `message_empty_iff`: the three outcomes that look the same;
- `quit_of_closed`: a loop that closed its socket has read `quit` as set; `closes_iff_quit`: once nothing more is read,
  that is all it takes;
- `handlerLoop_pieces`: on the pieces it is the loop of `handleClientConnections`;
- `handler_never_ends`: so without `quit` it never closes, and the thread goes round and round for as long as requests
  leave the process alive (`handler_spins`);
- `left_connection_spins`: a client that has sent one request and left.
-/
import NetSec.NatServer.Framing

namespace NetSec.NatServer

open NetSec.Text

inductive ReadResult where
  /-- what was read; nothing, at the end of the file -/
  | bytes (piece : Text)
  /-- an error -/
  | failed
deriving DecidableEq, Repr

/-- recv_all: the message, and what it returns -/
def ReadResult.recvAll : ReadResult → Text × ℤ
  | .bytes piece => (NatServer.recvAll piece, 0)
  | .failed => (NatServer.recvAll [], 1)

/-- what one round of the loop meets -/
structure Round where
  quitAtHead : Bool
  read : ReadResult
  quitAfterRead : Bool
  /-- what the other threads have done to the server since the last round -/
  others : Server → Server
  env : RequestEnv

inductive HandlerEnd where
  /-- the loop is left: the socket is closed, the thread ends -/
  | closed
  /-- a request has ended the process -/
  | died
deriving DecidableEq, Repr

/-- the loop of one connection; `none` while it goes on -/
def handlerLoop : ℕ → (ℕ → Round) → Server → Option (HandlerEnd × Server)
  | 0, _, _ => none
  | fuel + 1, rounds, s =>
    let round := rounds 0
    if round.quitAtHead then some (.closed, s)
    else
      let message := round.read.recvAll.1
      let s := round.others s
      if round.quitAfterRead then some (.closed, s)
      else if message = [] then handlerLoop fuel (fun n => rounds (n + 1)) s
      else
        -- no outcome while the search for an address goes on
        (handleRequest round.env message s).bind fun o =>
          if o.survives then handlerLoop fuel (fun n => rounds (n + 1)) o.srv else some (.died, o.srv)

/-- the handler comes to its end and closes the socket -/
def Closes (rounds : ℕ → Round) (s : Server) : Prop := ∃ fuel s', handlerLoop fuel rounds s = some (.closed, s')

/-! ## Connections -/

inductive Ending where
  | eof
  | failed
deriving DecidableEq, Repr

/-- what a read gives from then on -/
def Ending.read : Ending → ReadResult
  | .eof => .bytes []
  | .failed => .failed

structure Connection where
  pieces : List Text
  ending : Ending

def Connection.read (c : Connection) (n : ℕ) : ReadResult := (c.pieces[n]?).elim c.ending.read .bytes

/-- the rounds of a connection while `quit` is not set -/
def Connection.rounds (c : Connection) (others : ℕ → Server → Server) (env : ℕ → RequestEnv) (n : ℕ) : Round :=
  ⟨false, c.read n, false, others n, env n⟩

/-! ## Three outcomes -/

/-- **They look the same.** -/
theorem message_empty_iff (r : ReadResult) :
    r.recvAll.1 = [] ↔ r = .failed ∨ r = .bytes [] ∨ ∃ rest, r = .bytes (nul :: rest) := by
  cases r with
  | failed => exact iff_of_true rfl (Or.inl rfl)
  | bytes piece =>
    cases piece with
    | nil => exact iff_of_true rfl (Or.inr (Or.inl rfl))
    | cons c rest =>
      by_cases hc : c = nul
      · subst hc
        exact iff_of_true rfl (Or.inr (Or.inr ⟨rest, rfl⟩))
      · simp [ReadResult.recvAll, recvAll, cString, hc]

theorem Ending.message_empty (e : Ending) : e.read.recvAll.1 = [] := by
  cases e <;> rfl

/-! ## The loop -/

/-- a round that reads an empty message -/
theorem handlerLoop_empty {rounds : ℕ → Round} (hhead : (rounds 0).quitAtHead = false)
    (hafter : (rounds 0).quitAfterRead = false) (hempty : (rounds 0).read.recvAll.1 = []) (fuel : ℕ) (s : Server) :
    handlerLoop (fuel + 1) rounds s = handlerLoop fuel (fun n => rounds (n + 1)) ((rounds 0).others s) := by
  simp only [handlerLoop, hhead, hafter, hempty, Bool.false_eq_true, if_false, if_true]

/-- a round that reads a message -/
theorem handlerLoop_message {rounds : ℕ → Round} (hhead : (rounds 0).quitAtHead = false)
    (hafter : (rounds 0).quitAfterRead = false) (hmessage : (rounds 0).read.recvAll.1 ≠ []) (fuel : ℕ) (s : Server) :
    handlerLoop (fuel + 1) rounds s =
      (handleRequest (rounds 0).env (rounds 0).read.recvAll.1 ((rounds 0).others s)).bind fun o =>
        if o.survives then handlerLoop fuel (fun n => rounds (n + 1)) o.srv else some (.died, o.srv) := by
  simp only [handlerLoop, hhead, hafter, hmessage, Bool.false_eq_true, if_false]

/-- **A socket is closed after `quit` only.** -/
theorem quit_of_closed {fuel : ℕ} {rounds : ℕ → Round} {s s' : Server}
    (h : handlerLoop fuel rounds s = some (.closed, s')) :
    ∃ n < fuel, (rounds n).quitAtHead = true ∨ (rounds n).quitAfterRead = true := by
  induction fuel generalizing rounds s with
  | zero => cases h
  | succ fuel ih =>
    -- a later round of the loop
    have hlater : ∀ t, handlerLoop fuel (fun n => rounds (n + 1)) t = some (.closed, s') →
        ∃ n < fuel + 1, (rounds n).quitAtHead = true ∨ (rounds n).quitAfterRead = true := by
      intro t ht
      obtain ⟨n, hn, hquit⟩ := ih ht
      exact ⟨n + 1, Nat.succ_lt_succ hn, hquit⟩
    cases hhead : (rounds 0).quitAtHead with
    | true => exact ⟨0, Nat.succ_pos fuel, Or.inl hhead⟩
    | false =>
      cases hafter : (rounds 0).quitAfterRead with
      | true => exact ⟨0, Nat.succ_pos fuel, Or.inr hafter⟩
      | false =>
        by_cases hempty : (rounds 0).read.recvAll.1 = []
        · rw [handlerLoop_empty hhead hafter hempty] at h
          exact hlater _ h
        · rw [handlerLoop_message hhead hafter hempty, Option.bind_eq_some_iff] at h
          obtain ⟨o, -, h⟩ := h
          split_ifs at h with hsurvives
          · exact hlater _ h
          · cases h

theorem closes_at_once {rounds : ℕ → Round} (h : (rounds 0).quitAtHead = true ∨ (rounds 0).quitAfterRead = true)
    (s : Server) : Closes rounds s := by
  refine ⟨1, ?_⟩
  cases hhead : (rounds 0).quitAtHead with
  | true => exact ⟨s, by simp only [handlerLoop, hhead, if_true]⟩
  | false =>
    have hafter : (rounds 0).quitAfterRead = true := by simpa [hhead] using h
    exact ⟨(rounds 0).others s, by simp only [handlerLoop, hhead, hafter, Bool.false_eq_true, if_false, if_true]⟩

/-- **When nothing more is read** the socket is closed exactly if `quit` is set at some time. -/
theorem closes_iff_quit {rounds : ℕ → Round} (hempty : ∀ n, (rounds n).read.recvAll.1 = []) (s : Server) :
    Closes rounds s ↔ ∃ n, (rounds n).quitAtHead = true ∨ (rounds n).quitAfterRead = true := by
  constructor
  · intro h
    obtain ⟨fuel, s', hclosed⟩ := h
    obtain ⟨n, -, hquit⟩ := quit_of_closed hclosed
    exact ⟨n, hquit⟩
  · intro h
    obtain ⟨n, hquit⟩ := h
    induction n generalizing rounds s with
    | zero => exact closes_at_once hquit s
    | succ n ih =>
      by_cases hfirst : (rounds 0).quitAtHead = true ∨ (rounds 0).quitAfterRead = true
      · exact closes_at_once hfirst s
      · rw [not_or, Bool.not_eq_true, Bool.not_eq_true] at hfirst
        obtain ⟨fuel, s', hclosed⟩ := ih (fun k => hempty (k + 1)) ((rounds 0).others s) hquit
        exact ⟨fuel + 1, s', (handlerLoop_empty hfirst.1 hfirst.2 (hempty 0) fuel s).trans hclosed⟩

/-- **On the pieces it is the loop of handleClientConnections.** While no other thread does anything, and as long as the
requests leave the process alive, it takes the server where that loop takes it, and then goes on. -/
theorem handlerLoop_pieces {requests : List (RequestEnv × Text)}
    (halive : ∀ q ∈ requests, survives q.1.freed (recvAll q.2) = true) {rounds : ℕ → Round}
    (hrounds : ∀ n q, requests[n]? = some q → rounds n = ⟨false, .bytes q.2, false, id, q.1⟩) {s s' : Server}
    (h : handleClientConnections requests s = some s') (fuel : ℕ) :
    handlerLoop (fuel + requests.length) rounds s = handlerLoop fuel (fun n => rounds (n + requests.length)) s' := by
  induction requests generalizing rounds s with
  | nil =>
    obtain rfl := Option.some.inj h
    rfl
  | cons q rest ih =>
    obtain ⟨hq, hrest⟩ := List.forall_mem_cons.1 halive
    have hround : rounds 0 = ⟨false, .bytes q.2, false, id, q.1⟩ := hrounds 0 q rfl
    have hhead : (rounds 0).quitAtHead = false := congrArg Round.quitAtHead hround
    have hafter : (rounds 0).quitAfterRead = false := congrArg Round.quitAfterRead hround
    have hread : (rounds 0).read.recvAll.1 = recvAll q.2 := congrArg (fun r => r.read.recvAll.1) hround
    have hnext : ∀ t, handleClientConnections rest t = some s' →
        handlerLoop (fuel + rest.length) (fun n => rounds (n + 1)) t =
          handlerLoop fuel (fun n => rounds (n + rest.length + 1)) s' := fun t ht =>
      ih hrest (fun n q' hn => hrounds (n + 1) q' hn) ht
    change handlerLoop (fuel + rest.length + 1) rounds s = handlerLoop fuel (fun n => rounds (n + rest.length + 1)) s'
    rw [handleClientConnections] at h
    by_cases hempty : recvAll q.2 = []
    · rw [handlerLoop_empty hhead hafter (hread.trans hempty), hround]
      exact hnext s ((if_pos hempty).symm.trans h)
    · rw [handlerLoop_message hhead hafter (hread.trans_ne hempty), hround]
      rw [if_neg hempty] at h
      cases ho : handleRequest q.1 (recvAll q.2) s with
      | none =>
        rw [ho] at h
        cases h
      | some o =>
        have hsurvives : o.survives = true := (survives_handleRequest ho).trans hq
        rw [ho] at h
        change (handleRequest q.1 (recvAll q.2) s).bind _ = _
        rw [ho, Option.bind_some, if_pos hsurvives]
        exact hnext o.srv ((if_pos hsurvives).symm.trans h)

/-- **It goes on for ever** while `quit` is not set and no request ends the process. -/
theorem handlerLoop_spins {rounds : ℕ → Round}
    (hquiet : ∀ n, (rounds n).quitAtHead = false ∧ (rounds n).quitAfterRead = false)
    (halive : ∀ n, survives (rounds n).env.freed (rounds n).read.recvAll.1 = true) (fuel : ℕ) (s : Server) :
    handlerLoop fuel rounds s = none := by
  induction fuel generalizing rounds s with
  | zero => rfl
  | succ fuel ih =>
    obtain ⟨hhead, hafter⟩ := hquiet 0
    have hnext : ∀ t, handlerLoop fuel (fun n => rounds (n + 1)) t = none := fun t =>
      ih (fun n => hquiet (n + 1)) (fun n => halive (n + 1)) t
    by_cases hempty : (rounds 0).read.recvAll.1 = []
    · rw [handlerLoop_empty hhead hafter hempty]
      exact hnext _
    · rw [handlerLoop_message hhead hafter hempty, Option.bind_eq_none_iff]
      intro o ho
      rw [if_pos ((survives_handleRequest ho).trans (halive 0))]
      exact hnext _

/-! ## A handler outlives its connection -/

/-- **The handler never ends.** Whatever the pieces of a connection and however it ends, with `quit` never set: the
socket is not closed. -/
theorem handler_never_ends (c : Connection) (others : ℕ → Server → Server) (env : ℕ → RequestEnv) (s : Server) :
    ¬ Closes (c.rounds others env) s := by
  intro h
  obtain ⟨fuel, s', hclosed⟩ := h
  obtain ⟨n, -, hquit⟩ := quit_of_closed hclosed
  rcases hquit with hhead | hafter
  · cases hhead
  · cases hafter

/-- **It spins** when its requests leave the process alive. -/
theorem handler_spins {c : Connection} {others : ℕ → Server → Server} {env : ℕ → RequestEnv}
    (halive : ∀ n piece, c.pieces[n]? = some piece → survives (env n).freed (recvAll piece) = true) (fuel : ℕ)
    (s : Server) : handlerLoop fuel (c.rounds others env) s = none := by
  refine handlerLoop_spins (fun n => ⟨rfl, rfl⟩) (fun n => ?_) fuel s
  change survives (env n).freed (c.read n).recvAll.1 = true
  unfold Connection.read
  cases hpiece : c.pieces[n]? with
  | none =>
    rw [Option.elim_none, c.ending.message_empty]
    rfl
  | some piece => exact halive n piece hpiece

/-- one request, and the client is gone -/
def leftConnection : Connection := ⟨["BAN;10.4.11.17".toList], .eof⟩

def undisturbed : ℕ → Server → Server := fun _ => id

def noFreedReads : ℕ → RequestEnv := fun _ => ⟨⟨[], IpReads.of [], false⟩, ⟨[], 0, 0, [], 0⟩, 0⟩

/-- **A client that is gone.** Its request is answered, and its handler spins from then on with the socket open. -/
theorem left_connection_spins :
    (handleRequest (noFreedReads 0) "BAN;10.4.11.17".toList bootServer).bind Outcome.reply =
      some (ackText clientA (expirationTimeSeconds + gracePeriodSeconds)) ∧
    (∀ fuel, handlerLoop fuel (leftConnection.rounds undisturbed noFreedReads) bootServer = none) ∧
    ¬ Closes (leftConnection.rounds undisturbed noFreedReads) bootServer := by
  have hban : survives (noFreedReads 0).freed (recvAll "BAN;10.4.11.17".toList) = true := by decide
  have hspins : ∀ fuel, handlerLoop fuel (leftConnection.rounds undisturbed noFreedReads) bootServer = none := by
    intro fuel
    refine handler_spins ?_ fuel bootServer
    intro n piece hpiece
    obtain rfl : piece = "BAN;10.4.11.17".toList := List.mem_singleton.1 (List.mem_of_getElem? hpiece)
    exact hban
  refine ⟨by decide, hspins, ?_⟩
  intro h
  obtain ⟨fuel, s', hclosed⟩ := h
  rw [hspins fuel] at hclosed
  cases hclosed

end NetSec.NatServer
