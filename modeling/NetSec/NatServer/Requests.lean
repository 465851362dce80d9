/-
From the bytes on a connection to what the server does: recv_all, handleClientConnections, handleRequest
(NAT/NATServer.c, lines 371-504 and 651-679).

`recvAll` is one read into the zero-filled buffer of MAXREQUESTMESSAGESIZE bytes. `dispatch` is handleRequest up to the
branch it takes: the two `strtok` calls, the two checks, the comparison of the command. `handleRequest` carries the
branch out on the server's state, `handleClientConnections` is the loop over the pieces that the reads of one
connection return.

When the second field is missing or has the wrong length, handleRequest frees the message and goes on: that branch has
no `return`, the next one has. From there `command` and `ip` are read from freed memory, and at the end both
blocks are freed again. `Freed` is what such reads give and whether the second free aborts the process; nothing is
assumed about it. A NULL `ip` stays NULL.

- `dispatch_accepted`: a message with a 3-character command and an address of 7 to 12 characters is acted on as it
  stands, whatever freed memory holds;
- `dispatch_fallsThrough`: a message that fell through is acted on as freed memory reads;
- `fields_of_dispatch`: whatever is acted on without reading freed memory are the two fields of the message;
- `handleRequest_add`, `handleRequest_ban`: what is done then is the step of the one-at-a-time server.
-/
import NetSec.NatServer.Server

namespace NetSec.NatServer

open NetSec.Run NetSec.Text

/-! ## Messages -/

/-- what the string at `ip` reads as: for the rule or `sscanf`, for the list's entry, for the reply -/
structure IpReads where
  first : Text
  entry : Text
  reply : Text
deriving DecidableEq, Repr

/-- a string that nobody has freed -/
def IpReads.of (ip : Text) : IpReads := ⟨ip, ip, ip⟩

/-- what reads from a freed message give, and whether freeing its blocks again aborts the process -/
structure Freed where
  command : Text
  ip : IpReads
  aborts : Bool
deriving DecidableEq, Repr

/-- one read: the bytes it returned, in a buffer of zeros -/
def recvAll (piece : Text) : Text := cString piece

/-- the first check of handleRequest -/
def badIp (ip : Option Text) : Bool :=
  match ip with
  | none => true
  | some ip => ip.length < 7 || 12 < ip.length

/-- the second check -/
def badCommand (command : Option Text) : Bool :=
  match command with
  | none => true
  | some command => command.length < 3 || 3 < command.length

/-- handleRequest fails its first check: the message is freed -/
def fallsThrough (message : Text) : Bool := badIp (fields ';' message).2

/-- what `command` and `ip` read as after the checks; `none` when handleRequest has returned -/
def checkRequest (freed : Freed) (command ip : Option Text) : Option (Option Text × Option IpReads) :=
  if badIp ip then some (command.map fun _ => freed.command, ip.map fun _ => freed.ip)
  else if badCommand command then none
  else some (command, ip.map IpReads.of)

inductive Dispatch where
  /-- nothing is done and nothing is sent -/
  | rejected
  /-- a NULL pointer is read -/
  | crash
  | add (ip : Text)
  | ban (ip : IpReads)
  /-- BAN with NULL: the rule is added, then `strdup` reads NULL -/
  | banNull
  /-- another command: only the reply is sent -/
  | unknown
deriving DecidableEq, Repr

/-- the branch handleRequest takes on what the two `strtok` calls returned -/
def dispatchFields (freed : Freed) (command ip : Option Text) : Dispatch :=
  match checkRequest freed command ip with
  | none => .rejected
  | some (none, _) => .crash
  | some (some command, ip) =>
    if command = "ADD".toList then
      match ip with
      | none => .crash
      | some ip => .add ip.first
    else if command = "BAN".toList then
      match ip with
      | none => .banNull
      | some ip => .ban ip
    else .unknown

/-- the branch handleRequest takes -/
def dispatch (freed : Freed) (message : Text) : Dispatch :=
  if message = [] then .rejected else dispatchFields freed (fields ';' message).1 (fields ';' message).2

/-- the process survives the request -/
def survives (freed : Freed) (message : Text) : Bool :=
  match dispatch freed message with
  | .crash => false
  | .banNull => false
  | .rejected => true
  | _ => !(fallsThrough message && freed.aborts)

/-! ## What is done -/

/-- what one request reads from outside -/
structure RequestEnv where
  freed : Freed
  add : AddEnv
  waitStamp : ℕ
deriving DecidableEq, Repr

structure Outcome where
  srv : Server
  reply : Option Text
  survives : Bool
deriving DecidableEq, Repr

/-- "ACK;%s;%d" -/
def ackText (mappedIP : Text) (mappingTTL : ℤ) : Text :=
  "ACK;".toList ++ mappedIP ++ ';' :: (if mappingTTL < 0 then ['-'] else []) ++ decimal mappingTTL.natAbs

/-- what `%s` prints for NULL -/
def nullText : Text := "(null)".toList

def handleRequest (e : RequestEnv) (message : Text) (s : Server) : Option Outcome :=
  let ok := survives e.freed message
  match dispatch e.freed message with
  | .rejected => some ⟨s, none, ok⟩
  | .crash => some ⟨s, none, ok⟩
  | .add ip =>
    (manipulateMapping ip e.add s).map fun (sm, s') =>
      ⟨{ s' with acks := s'.acks ++ [.lease (ispPrefix e.add.uninit ip) sm.mappedIP sm.mapTTL s'.now] },
        some (ackText sm.mappedIP sm.mapTTL), ok⟩
  | .ban ip =>
    let fw := checkAddRule .filter .append (.drop ip.first) s.fw
    let mappingTTL := expirationTimeSeconds + gracePeriodSeconds
    let timeNow := s.now + e.waitStamp
    some ⟨{ s with
        now := timeNow
        fw := fw
        bannedList := s.bannedList ++ [⟨timeNow, ip.entry⟩]
        acks := s.acks ++ [.ban ip.reply mappingTTL timeNow] },
      some (ackText ip.reply mappingTTL), ok⟩
  | .banNull => some ⟨{ s with fw := checkAddRule .filter .append (.drop nullText) s.fw }, none, ok⟩
  | .unknown => some ⟨s, some (ackText nullText 0), ok⟩

/-- the loop of one connection over the pieces its reads return; it waits in `read` when they are used up -/
def handleClientConnections : List (RequestEnv × Text) → Server → Option Server
  | [], s => some s
  | (e, piece) :: rest, s =>
    let message := recvAll piece
    if message = [] then handleClientConnections rest s
    else
      match handleRequest e message s with
      | none => none
      | some o => if o.survives then handleClientConnections rest o.srv else some o.srv

/-! ## Accepted messages -/

/-- **An accepted message is acted on as it stands.** -/
theorem dispatch_accepted {message command ip : Text} (freed : Freed)
    (h : fields ';' message = (some command, some ip)) (hc : command.length = 3) (h7 : 7 ≤ ip.length)
    (h12 : ip.length ≤ 12) :
    dispatch freed message =
        (if command = "ADD".toList then .add ip
          else if command = "BAN".toList then .ban (IpReads.of ip) else .unknown) ∧
      fallsThrough message = false := by
  have hip : badIp (some ip) = false := by
    simp only [badIp, Bool.or_eq_false_iff, decide_eq_false_iff_not]
    omega
  have hcommand : badCommand (some command) = false := by
    simp only [badCommand, Bool.or_eq_false_iff, decide_eq_false_iff_not]
    omega
  have hne : message ≠ [] := by
    rintro rfl
    simp [fields, strtokFrom] at h
  refine ⟨?_, by rw [fallsThrough, h, hip]⟩
  simp only [dispatch, dispatchFields, if_neg hne, checkRequest, h, hip, hcommand, Bool.false_eq_true, if_false,
    Option.map_some]
  rfl

/-- the server goes on after an accepted message -/
theorem survives_accepted {message command ip : Text} (freed : Freed)
    (h : fields ';' message = (some command, some ip)) (hc : command.length = 3) (h7 : 7 ≤ ip.length)
    (h12 : ip.length ≤ 12) : survives freed message = true := by
  obtain ⟨hd, hf⟩ := dispatch_accepted freed h hc h7 h12
  simp only [survives, hd, hf, Bool.false_and, Bool.not_false]
  split_ifs <;> rfl

theorem badIp_eq_false {ip : Option Text} : badIp ip = false ↔ ∃ t, ip = some t ∧ 7 ≤ t.length ∧ t.length ≤ 12 := by
  cases ip with
  | none => simp [badIp]
  | some t => simp [badIp]

theorem badCommand_eq_false {command : Option Text} :
    badCommand command = false ↔ ∃ t, command = some t ∧ t.length = 3 := by
  cases command with
  | none => simp [badCommand]
  | some t =>
    simp only [badCommand, Bool.or_eq_false_iff, decide_eq_false_iff_not, Option.some.injEq, exists_eq_left']
    omega

/-- a message that does not fall through is accepted, or rejected for its command -/
theorem fields_of_not_fallsThrough {message : Text} (freed : Freed) (h : fallsThrough message = false) :
    dispatch freed message = .rejected ∨ ∃ command ip, fields ';' message = (some command, some ip) ∧
      command.length = 3 ∧ 7 ≤ ip.length ∧ ip.length ≤ 12 := by
  rcases hfields : fields ';' message with ⟨command, ip⟩
  simp only [fallsThrough, hfields] at h
  obtain ⟨t, rfl, h7, h12⟩ := badIp_eq_false.1 h
  by_cases hc : badCommand command = false
  · obtain ⟨c, rfl, hlen⟩ := badCommand_eq_false.1 hc
    exact Or.inr ⟨c, t, rfl, hlen, h7, h12⟩
  · left
    rw [Bool.not_eq_false] at hc
    simp only [dispatch, dispatchFields, checkRequest, hfields, h, hc, Bool.false_eq_true, if_false, if_true, ite_self]

/-- a message that fell through is acted on as freed memory reads; a NULL `ip` stays NULL -/
theorem dispatch_fallsThrough {message command : Text} {ip : Option Text} (freed : Freed)
    (h : fields ';' message = (some command, ip)) (hf : fallsThrough message = true) :
    dispatch freed message =
      if freed.command = "ADD".toList then ip.elim .crash fun _ => .add freed.ip.first
      else if freed.command = "BAN".toList then ip.elim .banNull fun _ => .ban freed.ip else .unknown := by
  have hne : message ≠ [] := by
    rintro rfl
    simp [fields, strtokFrom] at h
  rw [fallsThrough, h] at hf
  simp only [dispatch, dispatchFields, if_neg hne, checkRequest, h, hf, if_true, Option.map_some]
  cases ip <;> rfl

/-- **What is acted on without falling through are the two fields.** -/
theorem fields_of_dispatch (freed : Freed) {message : Text} (h : fallsThrough message = false) :
    (∀ ip, dispatch freed message = .add ip → fields ';' message = (some "ADD".toList, some ip) ∧
        7 ≤ ip.length ∧ ip.length ≤ 12) ∧
      ∀ ip, dispatch freed message = .ban ip → ∃ t, ip = IpReads.of t ∧
        fields ';' message = (some "BAN".toList, some t) ∧ 7 ≤ t.length ∧ t.length ≤ 12 := by
  rcases fields_of_not_fallsThrough freed h with hr | ⟨command, t, hfields, hc, h7, h12⟩
  · simp [hr]
  · rw [(dispatch_accepted freed hfields hc h7 h12).1]
    split_ifs with hadd hban
    · simp [hfields, hadd, h7, h12]
    · simp [hfields, hban, h7, h12, IpReads.of, eq_comm]
    · simp

/-! ## Steps of the one-at-a-time server -/

theorem handleRequest_add {e : RequestEnv} {message ip : Text} (s : Server) (h : dispatch e.freed message = .add ip) :
    (handleRequest e message s).map Outcome.srv = step s (.add ip e.add) := by
  simp only [handleRequest, h, step, Option.map_map]
  rfl

theorem handleRequest_ban {e : RequestEnv} {message ip : Text} (s : Server)
    (h : dispatch e.freed message = .ban (IpReads.of ip)) :
    (handleRequest e message s).map Outcome.srv = step s (.ban ip e.waitStamp) := by
  simp only [handleRequest, h, step, Option.map_some, IpReads.of]
  rfl

end NetSec.NatServer
