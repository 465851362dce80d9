/-
Does the server carry out exactly the requests a client writes to its connection?

A client writes `Request`s, 'ADD;ip' or 'BAN;ip' with an address in dotted decimal form; nothing separates them. TCP
cuts the byte stream into the pieces that successive reads return (`IsCut`). `served` is the loop of
handleClientConnections up to the branch each message takes, `executed` the branches that carry a command out.

The commands carried out are not always the requests (`merged_bans`): a read is taken for a request. Two requests in one
read, or one in two, are other requests; and an address of more than 12 characters is rejected, as in
10.100.200.254.

- `framing_iff`: whatever freed memory holds, the commands carried out are exactly the requests, each once and in order,
  if and only if each read returns exactly one request and no address is longer than 12 characters. A command takes at
  least as many bytes as its request, so that nothing is left for a piece that is not a request;
- `connection_run`: the server's state then is that of the requests handled one at a time.
-/
import NetSec.NatServer.Requests

namespace NetSec.NatServer

open NetSec.Run NetSec.Text

/-! ## Requests on a connection -/

/-- so that the four numbers of an address can be written as numerals -/
instance octetNeZero : NeZero 256 := ⟨by decide⟩

structure IPv4 where
  a : Fin 256
  b : Fin 256
  c : Fin 256
  d : Fin 256
deriving DecidableEq, Repr

/-- dotted decimal form -/
def IPv4.text (ip : IPv4) : Text :=
  decimal ip.a ++ '.' :: decimal ip.b ++ '.' :: decimal ip.c ++ '.' :: decimal ip.d

inductive Command where
  | add
  | ban
deriving DecidableEq, Repr

def Command.text : Command → Text
  | .add => "ADD".toList
  | .ban => "BAN".toList

structure Request where
  command : Command
  ip : IPv4
deriving DecidableEq, Repr

/-- what the client writes -/
def Request.message (r : Request) : Text := r.command.text ++ ';' :: r.ip.text

/-- the branch that carries the request out -/
def Request.dispatch (r : Request) : Dispatch :=
  match r.command with
  | .add => .add r.ip.text
  | .ban => .ban (IpReads.of r.ip.text)

/-- the pieces that reads return of a stream: none is empty and each fits the buffer -/
structure IsCut (stream : Text) (pieces : List Text) : Prop where
  joined : pieces.flatten = stream
  nonempty : ∀ p ∈ pieces, p ≠ []
  fits : ∀ p ∈ pieces, p.length ≤ maxRequestMessageSize - 1

/-- the branches taken on one connection; `freed n` is what freed memory holds at the nth read -/
def served (freed : ℕ → Freed) : List Text → List Dispatch
  | [] => []
  | piece :: rest =>
    let message := recvAll piece
    if message = [] then served (fun n => freed (n + 1)) rest
    else
      dispatch (freed 0) message ::
        if survives (freed 0) message then served (fun n => freed (n + 1)) rest else []

/-- a command is carried out -/
def Dispatch.acts : Dispatch → Bool
  | .add _ => true
  | .ban _ => true
  | .banNull => true
  | _ => false

def executed (freed : ℕ → Freed) (pieces : List Text) : List Dispatch := (served freed pieces).filter Dispatch.acts

/-! ## One request in one read -/

theorem mem_text {ip : IPv4} {c : Char} (h : c ∈ ip.text) : c.isDigit = true ∨ c = '.' := by
  simp only [IPv4.text, List.mem_append, List.mem_cons] at h
  rcases h with ((h | rfl | h) | rfl | h) | rfl | h
  all_goals first
    | exact Or.inr rfl
    | exact Or.inl (isDigit_of_mem_decimal h)

theorem text_length (ip : IPv4) : 7 ≤ ip.text.length := by
  have h (n : ℕ) : 0 < (decimal n).length := List.length_pos_iff.2 (decimal_ne_nil n)
  have ha := h ip.a
  have hb := h ip.b
  have hc := h ip.c
  have hd := h ip.d
  simp only [IPv4.text, List.length_append, List.length_cons]
  omega

theorem text_length_le (ip : IPv4) : ip.text.length ≤ 15 := by
  have ha := length_decimal_octet ip.a.isLt
  have hb := length_decimal_octet ip.b.isLt
  have hc := length_decimal_octet ip.c.isLt
  have hd := length_decimal_octet ip.d.isLt
  simp only [IPv4.text, List.length_append, List.length_cons]
  omega

/-- the four numbers of an address are read back -/
theorem scanDotted_text (ip : IPv4) (rest : Text) (h : ∀ c ∈ rest.head?, c.isDigit = false) :
    scanDotted 4 (ip.text ++ rest) = [(ip.a : ℤ), (ip.b : ℤ), (ip.c : ℤ), (ip.d : ℤ)] := by
  simp only [IPv4.text, List.append_assoc, List.cons_append]
  rw [scanDotted_cons, scanDotted_cons, scanDotted_cons, scanDotted_last _ _ h]

theorem text_injective : Function.Injective IPv4.text := by
  intro a b h
  have hscan (ip : IPv4) := scanDotted_text ip [] (by simp)
  have hnums := (hscan a).symm.trans ((congrArg (fun t => scanDotted 4 (t ++ [])) h).trans (hscan b))
  simp only [List.cons.injEq, Nat.cast_inj, Fin.val_inj, and_true] at hnums
  obtain ⟨ha, hb, hc, hd⟩ := hnums
  calc
    a = ⟨a.a, a.b, a.c, a.d⟩ := rfl
    _ = b := by rw [ha, hb, hc, hd]

/-- the /26 of an address, as the source prints it -/
theorem ispPrefix_address (uninit : List ℤ) (ip : IPv4) : ispPrefix uninit ip.text =
    decimal ip.a ++ '.' :: decimal ip.b ++ '.' :: decimal ip.c ++ '.' :: decimal (ip.d &&& 192) ++ "/26".toList := by
  have hscan := scanDotted_text ip [] (by simp)
  rw [List.append_nil] at hscan
  simp [ispPrefix, hscan, octet_ofNat]

theorem command_length (c : Command) : c.text.length = 3 := by cases c <;> rfl

theorem message_length (r : Request) : r.message.length = r.command.text.length + 1 + r.ip.text.length := by
  simp only [Request.message, List.length_append, List.length_cons]
  omega

theorem fields_message (r : Request) : fields ';' r.message = (some r.command.text, some r.ip.text) := by
  have hcommand (c : Command) : c.text ≠ [] ∧ ';' ∉ c.text := by cases c <;> decide
  have hip : r.ip.text ≠ [] := List.length_pos_iff.1 (by have := text_length r.ip; omega)
  have hsep : ';' ∉ r.ip.text := fun h => by simpa using mem_text h
  exact fields_join (hcommand _).1 (hcommand _).2 hip hsep

/-- a request is read as it was written -/
theorem recvAll_message (r : Request) : recvAll r.message = r.message := by
  have hcommand (c : Command) : nul ∉ c.text := by cases c <;> decide
  apply cString_of_not_mem
  intro h
  simp only [Request.message, List.mem_append, List.mem_cons] at h
  rcases h with h | h | h
  · exact hcommand _ h
  · revert h; decide
  · have := mem_text h
    revert this; decide

theorem message_ne_nil (r : Request) : r.message ≠ [] := by simp [Request.message]

/-- an address of at most 12 characters is carried out, whatever freed memory holds -/
theorem dispatch_message {r : Request} (h : r.ip.text.length ≤ 12) (freed : Freed) :
    dispatch freed r.message = r.dispatch ∧ survives freed r.message = true := by
  refine ⟨?_, survives_accepted freed (fields_message r) (command_length _) (text_length r.ip) h⟩
  rw [(dispatch_accepted freed (fields_message r) (command_length _) (text_length r.ip) h).1]
  unfold Request.dispatch
  cases r.command <;> rfl

theorem acts_dispatch (r : Request) : r.dispatch.acts = true := by
  unfold Request.dispatch
  cases r.command <;> rfl

/-! ## When nothing is carried out from freed memory -/

/-- freed memory that reads as empty strings, and no abort -/
def quiet : Freed := ⟨[], IpReads.of [], false⟩

theorem acts_quiet_of_fallsThrough {m : Text} (h : fallsThrough m = true) : (dispatch quiet m).acts = false := by
  rcases hfields : fields ';' m with ⟨command, ip⟩
  simp only [fallsThrough, hfields] at h
  unfold dispatch
  split_ifs
  · rfl
  · simp only [dispatchFields, checkRequest, hfields, h, if_true]
    cases command <;> rfl

/-- a command takes at least the bytes of its request, and as many only if the message is the request -/
theorem length_le_of_dispatch {m : Text} {r : Request} (h : dispatch quiet m = r.dispatch) :
    r.message.length ≤ m.length ∧ (m.length = r.message.length → m = r.message) ∧ r.ip.text.length ≤ 12 := by
  have hf : fallsThrough m = false := by
    by_contra hf
    rw [Bool.not_eq_false] at hf
    have := acts_quiet_of_fallsThrough hf
    rw [h, acts_dispatch] at this
    cases this
  obtain ⟨hadd, hban⟩ := fields_of_dispatch quiet hf
  obtain ⟨hfields, h12⟩ : fields ';' m = (some r.command.text, some r.ip.text) ∧ r.ip.text.length ≤ 12 := by
    obtain ⟨command, ip⟩ := r
    cases command with
    | add =>
      obtain ⟨h1, -, h2⟩ := hadd _ h
      exact ⟨h1, h2⟩
    | ban =>
      obtain ⟨t, ht, h1, -, h2⟩ := hban _ h
      obtain rfl : ip.text = t := congrArg IpReads.first ht
      exact ⟨h1, h2⟩
  rw [message_length]
  exact ⟨fields_length_le hfields, fields_eq_of_length hfields, h12⟩

/-! ## All pieces of a connection -/

theorem executed_cons (freed : ℕ → Freed) (piece : Text) (rest : List Text) :
    executed freed (piece :: rest) =
      if recvAll piece = [] then executed (fun n => freed (n + 1)) rest
      else (if (dispatch (freed 0) (recvAll piece)).acts then [dispatch (freed 0) (recvAll piece)] else []) ++
        if survives (freed 0) (recvAll piece) then executed (fun n => freed (n + 1)) rest else [] := by
  simp only [executed, served]
  split_ifs <;> simp_all

/-- the bytes of the requests, all together -/
def stream (requests : List Request) : Text := (requests.map Request.message).flatten

/-- the requests take no more bytes than the pieces, and as many only if the pieces are the requests -/
def TakesBytes (requests : List Request) (pieces : List Text) : Prop :=
  (stream requests).length ≤ pieces.flatten.length ∧
    (pieces.flatten.length = (stream requests).length →
      pieces = requests.map Request.message ∧ ∀ r ∈ requests, r.ip.text.length ≤ 12)

/-- a further piece that is no request leaves bytes over -/
theorem TakesBytes.skip {requests : List Request} {pieces : List Text} (h : TakesBytes requests pieces) {piece : Text}
    (hne : piece ≠ []) : TakesBytes requests (piece :: pieces) := by
  have hpos : 0 < piece.length := List.length_pos_iff.2 hne
  have hle := h.1
  unfold TakesBytes
  rw [List.flatten_cons, List.length_append]
  exact ⟨by omega, fun heq => by omega⟩

theorem TakesBytes.take {requests : List Request} {pieces : List Text} (h : TakesBytes requests pieces) {piece : Text}
    {r : Request} (hr : dispatch quiet (recvAll piece) = r.dispatch) :
    TakesBytes (r :: requests) (piece :: pieces) := by
  obtain ⟨hlen, heq, h12⟩ := length_le_of_dispatch hr
  have hread : (recvAll piece).length ≤ piece.length := cString_length_le piece
  obtain ⟨hle, hall⟩ := h
  unfold TakesBytes
  have hstream : stream (r :: requests) = r.message ++ stream requests := rfl
  rw [List.flatten_cons, List.length_append, hstream, List.length_append]
  refine ⟨by omega, ?_⟩
  intro htotal
  have hpiece : recvAll piece = piece := cString_eq_of_length (show (recvAll piece).length = _ by omega)
  obtain ⟨h1, h2⟩ := hall (by omega)
  refine ⟨?_, ?_⟩
  · rw [List.map_cons, ← h1, ← heq (by omega), hpiece]
  · intro r' hr'
    rcases List.mem_cons.1 hr' with rfl | hr'
    · exact h12
    · exact h2 r' hr'

theorem takesBytes_nil {pieces : List Text} (hne : ∀ p ∈ pieces, p ≠ []) : TakesBytes [] pieces := by
  refine ⟨Nat.zero_le _, fun h => ⟨?_, by simp⟩⟩
  rw [show stream [] = [] from rfl, List.length_nil, List.length_eq_zero_iff, List.flatten_eq_nil_iff] at h
  cases pieces with
  | nil => rfl
  | cons p ps => exact absurd (h p List.mem_cons_self) (hne p List.mem_cons_self)

theorem takesBytes_of_executed {pieces : List Text} {requests : List Request} (hne : ∀ p ∈ pieces, p ≠ [])
    (h : executed (fun _ => quiet) pieces = requests.map Request.dispatch) : TakesBytes requests pieces := by
  induction pieces generalizing requests with
  | nil =>
    obtain rfl : requests = [] := List.map_eq_nil_iff.1 (h.symm.trans rfl)
    exact takesBytes_nil hne
  | cons piece rest ih =>
    obtain ⟨hpiece, hrest⟩ := List.forall_mem_cons.1 hne
    rw [executed_cons] at h
    by_cases hm : recvAll piece = []
    · rw [if_pos hm] at h
      exact (ih hrest h).skip hpiece
    rw [if_neg hm] at h
    -- what the connection carries out after this piece
    have htail : ∀ rs : List Request, (if survives quiet (recvAll piece) = true then executed (fun _ => quiet) rest
        else []) = rs.map Request.dispatch → TakesBytes rs rest := by
      intro rs hrs
      split_ifs at hrs
      · exact ih hrest hrs
      · obtain rfl : rs = [] := List.map_eq_nil_iff.1 hrs.symm
        exact takesBytes_nil hrest
    by_cases hacts : (dispatch quiet (recvAll piece)).acts = true
    · rw [if_pos hacts] at h
      cases requests with
      | nil => simp at h
      | cons r rs =>
        rw [List.singleton_append, List.map_cons, List.cons.injEq] at h
        exact (htail rs h.2).take h.1
    · rw [if_neg hacts, List.nil_append] at h
      exact (htail requests h).skip hpiece

theorem executed_messages {requests : List Request} (h12 : ∀ r ∈ requests, r.ip.text.length ≤ 12) (freed : ℕ → Freed) :
    executed freed (requests.map Request.message) = requests.map Request.dispatch := by
  induction requests generalizing freed with
  | nil => rfl
  | cons r rs ih =>
    obtain ⟨hr, hrs⟩ := List.forall_mem_cons.1 h12
    obtain ⟨hd, hok⟩ := dispatch_message hr (freed 0)
    rw [List.map_cons, executed_cons, recvAll_message, if_neg (message_ne_nil r), hd, hok, acts_dispatch, if_pos rfl,
      if_pos rfl, ih hrs]
    rfl

/-- **Requests are carried out exactly when each read returns one.** For every sequence of requests and every cut of
their bytes: the commands carried out are the requests, each once and in order, whatever freed memory holds, if and only
if the pieces are the requests and no address is longer than 12 characters. -/
theorem framing_iff {requests : List Request} {pieces : List Text} (h : IsCut (stream requests) pieces) :
    (∀ freed, executed freed pieces = requests.map Request.dispatch) ↔
      pieces = requests.map Request.message ∧ ∀ r ∈ requests, r.ip.text.length ≤ 12 := by
  refine ⟨?_, ?_⟩
  · intro hall
    exact (takesBytes_of_executed h.nonempty (hall _)).2 (by rw [h.joined])
  · rintro ⟨rfl, h12⟩ freed
    exact executed_messages h12 freed

def banOf (d : Fin 256) : Request := ⟨.ban, ⟨10, 4, 11, d⟩⟩

/-- three requests, each in a piece of its own -/
def threeRequests : List Request := [banOf 1, ⟨.add, ⟨10, 4, 12, 17⟩⟩, banOf 200]

theorem framing_iff_three : IsCut (stream threeRequests) (threeRequests.map Request.message) ∧
    ∀ freed, executed freed (threeRequests.map Request.message) = threeRequests.map Request.dispatch := by
  have hcut : IsCut (stream threeRequests) (threeRequests.map Request.message) := ⟨by decide, by decide, by decide⟩
  exact ⟨hcut, (framing_iff hcut).2 ⟨rfl, by decide⟩⟩

/-- two BAN requests sent back to back, cut by the 20-byte read -/
def mergedPieces : List Text := ["BAN;10.4.11.1BAN;10.".toList, "4.11.2".toList]

/-- **Merged requests are another request.** One ban is carried out, of "10.4.11.1BAN". -/
theorem merged_bans : IsCut (stream [banOf 1, banOf 2]) mergedPieces ∧
    ¬ ∀ freed, executed freed mergedPieces = [banOf 1, banOf 2].map Request.dispatch := by
  refine ⟨⟨by decide, by decide, by decide⟩, ?_⟩
  intro h
  have := h fun _ => quiet
  revert this
  decide

/-! ## The server's state -/

/-- the request as an operation of the one-at-a-time server -/
def Request.op (r : Request) (e : RequestEnv) : Op :=
  match r.command with
  | .add => .add r.ip.text e.add
  | .ban => .ban r.ip.text e.waitStamp

theorem handleRequest_message {r : Request} (h : r.ip.text.length ≤ 12) (e : RequestEnv) (s : Server) :
    (handleRequest e r.message s).map Outcome.srv = step s (r.op e) := by
  have hd := (dispatch_message h e.freed).1
  obtain ⟨command, ip⟩ := r
  cases command with
  | add => exact handleRequest_add s hd
  | ban => exact handleRequest_ban s hd

/-- whatever handleRequest answers, the process survives as `survives` says -/
theorem survives_handleRequest {e : RequestEnv} {m : Text} {s : Server} {o : Outcome}
    (h : handleRequest e m s = some o) : o.survives = survives e.freed m := by
  unfold handleRequest at h
  split at h
  case h_3 =>
    rw [Option.map_eq_some_iff] at h
    obtain ⟨x, -, rfl⟩ := h
    rfl
  all_goals
    rw [Option.some.injEq] at h
    rw [← h]

/-- **A connection of requests.** When each read returns one request and no address is too long, the connection takes
the server through the requests handled one at a time. -/
theorem connection_run (requests : List (RequestEnv × Request)) (h12 : ∀ q ∈ requests, q.2.ip.text.length ≤ 12)
    (s : Server) :
    handleClientConnections (requests.map fun q => (q.1, q.2.message)) s =
      run step s (requests.map fun q => q.2.op q.1) := by
  induction requests generalizing s with
  | nil => rfl
  | cons q rest ih =>
    obtain ⟨hq, hrest⟩ := List.forall_mem_cons.1 h12
    have hstep := handleRequest_message hq q.1 s
    rw [List.map_cons, List.map_cons, run_cons, ← hstep]
    simp only [handleClientConnections, recvAll_message, if_neg (message_ne_nil q.2)]
    cases ho : handleRequest q.1 q.2.message s with
    | none => rfl
    | some o =>
      have hok : o.survives = true := by rw [survives_handleRequest ho]; exact (dispatch_message hq _).2
      simp only [hok, if_true, Option.map_some, Option.bind_some]
      exact ih hrest o.srv

end NetSec.NatServer
