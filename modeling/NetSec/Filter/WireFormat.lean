/-
Do the NAT server and its clients agree on the wire format? (DNS/DNSFilter.py and DNS/DNSHopCount.py, NAT_update;
NAT/NATServer.c, recv_all and handleRequest)

A client writes 'ADD;ip' or 'BAN;ip', the server answers "ACK;address;ttl", and `natUpdate` is the client's reading of
the answer: one `recv` with a limit of its own, `strip`, `rstrip`, `split(';')`, fields 1 and 2. got_packet of the
listener writes the same BAN and reads nothing.

`Agrees r`: the request fits the server's read and is read as it was written; whatever freed memory holds it is
accepted, for exactly its address; in every state that the server can be in it is carried out, and the client reads
from the answer exactly the address and the lifetime that the server has acknowledged.

Everything fits but the check of the address, which allows 12 characters where an address takes up to 15:
"BAN;192.168.1.101" is not a ban (`long_address_not_banned`).

- `natUpdate_ackText`: an answer within the limit is read back;
- `wireFormat_iff`: both sides agree exactly on the addresses of at most 12 characters.
-/
import NetSec.NatServer.Injection
import NetSec.NatServer.LeaseKey
import NetSec.NatServer.LeaseUnique

namespace NetSec.Filter

open NetSec.NatServer NetSec.Run NetSec.Text

/-! ## The client -/

/-- how much of the answer the client of a command reads -/
def recvLimit : Command → ℕ
  | .add => 25
  | .ban => 20

/-- the rest of NAT_update once the answer has come; `none` when it raises an exception -/
def natUpdate (limit : ℕ) (ack : Text) : Option (Text × ℤ) :=
  let ipback := ((strip (ack.take limit)).rdropWhile (· = nul)).splitOn ';'
  match ipback[1]?, ipback[2]? with
  | some ip, some ttl => (parseInt ttl).map fun ttl => (ip, ttl)
  | _, _ => none

/-! ## Agreement -/

/-- the /26 of an address -/
def network (ip : IPv4) : Text :=
  decimal ip.a ++ '.' :: decimal ip.b ++ '.' :: decimal ip.c ++ '.' :: decimal (ip.d &&& 192) ++ "/26".toList

/-- the address and the lifetime of an acknowledgement -/
def answered : Ack → Text × ℤ
  | .lease _ pub ttl _ => (pub, ttl)
  | .ban ip ttl _ => (ip, ttl)

/-- sent alone, the request is understood by the server and the answer by the client -/
structure Agrees (r : Request) : Prop where
  fits : r.message.length ≤ maxRequestMessageSize - 1
  read : recvAll r.message = r.message
  accepted : ∀ freed, dispatch freed r.message = r.dispatch ∧ survives freed r.message = true
  leased : ∀ uninit, ispPrefix uninit r.ip.text = network r.ip
  carriedOut : ∀ e s, (handleRequest e r.message s).map Outcome.srv = step s (r.op e)
  answer : ∀ s, Start s → ∀ t, Reaches step s t → ∀ e o, handleRequest e r.message t = some o →
    ∃ ack reply, o.srv.acks = t.acks ++ [ack] ∧ o.reply = some reply ∧
      natUpdate (recvLimit r.command) reply = some (answered ack)

/-! ## Networks and addresses -/

theorem network_eq_iff (a b : IPv4) : network a = network b ↔ SameBlock a b := by
  have hkey := ispPrefix_eq_iff [] [] a b
  rwa [ispPrefix_address, ispPrefix_address] at hkey

/-- whatever is asked for, the key is the text of a network -/
theorem ispPrefix_network (uninit : List ℤ) (ip : Text) : ∃ a : IPv4, ispPrefix uninit ip = network a := by
  let cp (i : ℕ) : ℕ := octet (((scanDotted 4 ip)[i]?).getD ((uninit[i]?).getD 0))
  have hlt (i : ℕ) : cp i < 256 := by
    simp only [cp, octet]
    omega
  exact ⟨⟨⟨cp 0, hlt 0⟩, ⟨cp 1, hlt 1⟩, ⟨cp 2, hlt 2⟩, ⟨cp 3, hlt 3⟩⟩, rfl⟩

/-- an address that the server draws -/
def fluxIp (rand : ℕ) : IPv4 :=
  ⟨10, 4, 11, Fin.ofNat 256 (rand % (publicIpRangeEnd - publicIpRangeStart + 1) + publicIpRangeStart)⟩

theorem fluxIp_text (rand : ℕ) : (fluxIp rand).text = fluxAddress rand := by
  have hlt : rand % (publicIpRangeEnd - publicIpRangeStart + 1) + publicIpRangeStart < 256 := by
    unfold publicIpRangeEnd publicIpRangeStart
    omega
  have hval : ((fluxIp rand).d : ℕ) = rand % (publicIpRangeEnd - publicIpRangeStart + 1) + publicIpRangeStart :=
    Nat.mod_eq_of_lt hlt
  have hfront : decimal ((10 : Fin 256) : ℕ) ++ '.' :: decimal ((4 : Fin 256) : ℕ) ++ '.' ::
      decimal ((11 : Fin 256) : ℕ) ++ ['.'] = serverFluxClassAAddress := by decide
  calc
    (fluxIp rand).text = (decimal ((10 : Fin 256) : ℕ) ++ '.' :: decimal ((4 : Fin 256) : ℕ) ++ '.' ::
        decimal ((11 : Fin 256) : ℕ) ++ ['.']) ++ decimal (fluxIp rand).d := by
      simp [IPv4.text, fluxIp]
    _ = fluxAddress rand := by rw [hfront, hval, fluxAddress]

/-! ## Reading an answer -/

/-- the bytes of addresses and numbers -/
def IsPlain (c : Char) : Prop := c.isDigit = true ∨ c = '.' ∨ c = '/'

theorem isPlain_of_mem_decimal {n : ℕ} {c : Char} (h : c ∈ decimal n) : IsPlain c := Or.inl (isDigit_of_mem_decimal h)

theorem isPlain_of_mem_text {ip : IPv4} {c : Char} (h : c ∈ ip.text) : IsPlain c := (mem_text h).imp id Or.inl

/-- they are neither stripped nor taken for a separator -/
theorem IsPlain.kept {c : Char} (h : IsPlain c) : isSpace c = false ∧ c ≠ nul ∧ c ≠ ';' := by
  rcases h with h | rfl | rfl
  · refine ⟨isSpace_of_isDigit h, ?_, ?_⟩
    · rintro rfl
      revert h
      decide
    · rintro rfl
      revert h
      decide
  · decide
  · decide

theorem ackText_ofNat (addr : Text) (ttl : ℕ) : ackText addr ttl = "ACK;".toList ++ addr ++ ';' :: decimal ttl := by
  simp [ackText]

theorem ackText_length (addr : Text) (ttl : ℕ) :
    (ackText addr ttl).length = addr.length + (decimal ttl).length + 5 := by
  have hack : "ACK;".toList.length = 4 := rfl
  simp only [ackText_ofNat, List.length_append, List.length_cons, hack]
  omega

/-- **An answer within the limit is read back.** -/
theorem natUpdate_ackText {addr : Text} {limit : ℕ} (ttl : ℕ) (haddr : ∀ c ∈ addr, IsPlain c)
    (hlen : addr.length + (decimal ttl).length + 5 ≤ limit) :
    natUpdate limit (ackText addr ttl) = some (addr, (ttl : ℤ)) := by
  have hmem : ∀ c ∈ ackText addr ttl, isSpace c = false ∧ c ≠ nul := by
    have hack : "ACK;".toList.all (fun c => !isSpace c && c ≠ nul) = true := by decide
    intro c hc
    rw [ackText_ofNat] at hc
    simp only [List.mem_append, List.mem_cons] at hc
    rcases hc with (hc | hc) | rfl | hc
    · simpa using List.all_eq_true.1 hack c hc
    · exact ⟨(haddr c hc).kept.1, (haddr c hc).kept.2.1⟩
    · decide
    · exact ⟨(isPlain_of_mem_decimal hc).kept.1, (isPlain_of_mem_decimal hc).kept.2.1⟩
  have htake : (ackText addr ttl).take limit = ackText addr ttl :=
    List.take_of_length_le (by rw [ackText_length]; exact hlen)
  have hstrip : strip (ackText addr ttl) = ackText addr ttl := strip_of_forall fun c hc => (hmem c hc).1
  have hrstrip : (ackText addr ttl).rdropWhile (· = nul) = ackText addr ttl := by
    rw [List.rdropWhile_eq_self_iff]
    intro hne
    simpa using (hmem _ (List.getLast_mem hne)).2
  have hsplit : (ackText addr ttl).splitOn ';' = ["ACK".toList, addr, decimal ttl] := by
    have hjoin : ackText addr ttl = [';'].intercalate ["ACK".toList, addr, decimal ttl] := by
      simp [ackText_ofNat, List.intercalate, List.intersperse]
    rw [hjoin]
    refine List.splitOn_intercalate ';' ?_ (by simp)
    intro l hl hsep
    simp only [List.mem_cons, List.not_mem_nil, or_false] at hl
    rcases hl with rfl | rfl | rfl
    · revert hsep
      decide
    · exact (haddr _ hsep).kept.2.2 rfl
    · exact (isPlain_of_mem_decimal hsep).kept.2.2 rfl
  simp only [natUpdate, htake, hstrip, hrstrip, hsplit]
  simp [parseInt_decimal]

/-! ## Lengths -/

theorem length_fluxAddress (rand : ℕ) : (fluxAddress rand).length ≤ 11 := by
  have hlt : rand % (publicIpRangeEnd - publicIpRangeStart + 1) + publicIpRangeStart < 256 := by
    unfold publicIpRangeEnd publicIpRangeStart
    omega
  have hdigits := length_decimal_octet hlt
  have hclass : serverFluxClassAAddress.length = 8 := rfl
  rw [fluxAddress, List.length_append, hclass]
  omega

/-! ## The server's states -/

/-- every mapping is stamped in the past, under an address that was drawn -/
def Drawn (s : Server) : Prop := ∀ m ∈ s.mappingList, m.time ≤ s.now ∧ ∃ rand, m.publicIP = fluxAddress rand

theorem drawn_step (s : Server) (o : Op) (t : Server) (h : Drawn s) (hs : step s o = some t) : Drawn t := by
  have hnow := step_now_le hs
  have hold : ∀ m ∈ s.mappingList, m.time ≤ t.now ∧ ∃ rand, m.publicIP = fluxAddress rand :=
    fun m hm => ⟨(h m hm).1.trans hnow, (h m hm).2⟩
  cases o with
  | wait d =>
    simp only [step, Option.some.injEq] at hs
    subst hs
    exact hold
  | add ip e =>
    rcases step_add hs with ⟨m, -, -, ht⟩ | ⟨pub, now, now', -, hdraw, rfl⟩
    · rw [ht]
      exact hold
    · intro m hm
      rcases List.mem_append.1 hm with hm | hm
      · exact hold m hm
      · rw [List.mem_singleton] at hm
        subst hm
        exact ⟨le_rfl, (drawAddress_some hdraw).2.1⟩
  | ban ip w =>
    simp only [step, Option.some.injEq] at hs
    subst hs
    exact hold
  | expireMapping =>
    obtain ⟨m, rest, hl, -, rfl⟩ := step_expireMapping hs
    intro x hx
    exact hold x (hl ▸ List.mem_cons_of_mem _ hx)
  | expireBan =>
    obtain ⟨b, rest, -, -, rfl⟩ := step_expireBan hs
    exact hold

theorem drawn_reaches {s t : Server} (hs : Start s) (h : Reaches step s t) : Drawn t := by
  obtain ⟨ops, hrun⟩ := h
  refine run_inv step drawn_step ?_ hrun
  simp [Drawn, hs.mappings]

/-! ## The answers -/

/-- an answer to ADD: a drawn address and a lifetime of one digit -/
theorem manipulateMapping_answer {ip : Text} {e : AddEnv} {s s' : Server} {sm : SuccessMapping} (hs : Drawn s)
    (h : manipulateMapping ip e s = some (sm, s')) :
    (∃ rand, sm.mappedIP = fluxAddress rand) ∧ ∃ ttl : ℕ, sm.mapTTL = ttl ∧ ttl < 10 := by
  rcases manipulateMapping_some h with ⟨m, hrun, -, rfl, -⟩ | ⟨pub, now, now', -, hdraw, rfl, -⟩
  · obtain ⟨hnow, hm, -, hfresh, -⟩ := runningLease_some hrun
    obtain ⟨hpast, hdrawn⟩ := hs m hm
    refine ⟨hdrawn, (expirationTimeSeconds - (s'.now - m.time)).toNat, ?_, ?_⟩
    · simp only
      omega
    · unfold expirationTimeSeconds at *
      omega
  · exact ⟨(drawAddress_some hdraw).2.1, 5, rfl, by norm_num⟩

theorem answer_add {r : Request} (hcommand : r.command = .add) (h12 : r.ip.text.length ≤ 12) {e : RequestEnv}
    {s : Server} {o : Outcome} (hs : Drawn s) (h : handleRequest e r.message s = some o) :
    ∃ ack reply, o.srv.acks = s.acks ++ [ack] ∧ o.reply = some reply ∧
      natUpdate (recvLimit .add) reply = some (answered ack) := by
  have hd := (dispatch_message h12 e.freed).1
  simp only [Request.dispatch, hcommand] at hd
  simp only [handleRequest, hd, Option.map_eq_some_iff] at h
  obtain ⟨⟨sm, s'⟩, hm, rfl⟩ := h
  obtain ⟨⟨rand, hpub⟩, ttl, httl, hlt⟩ := manipulateMapping_answer hs hm
  have hacks : s'.acks = s.acks := by
    rcases manipulateMapping_some hm with ⟨m, -, -, -, ht⟩ | ⟨pub, now, now', -, -, -, ht⟩
    · rw [ht]
    · rw [ht]
      rfl
  refine ⟨_, _, by rw [← hacks], rfl, ?_⟩
  have hflux := length_fluxAddress rand
  have hdigit := length_decimal_digit hlt
  simp only [answered, hpub, httl, recvLimit]
  exact natUpdate_ackText _ (fun c hc => mem_addressText (addressText_fluxAddress rand) hc) (by omega)

theorem answer_ban {r : Request} (hcommand : r.command = .ban) (h12 : r.ip.text.length ≤ 12) {e : RequestEnv}
    {s : Server} {o : Outcome} (h : handleRequest e r.message s = some o) :
    ∃ ack reply, o.srv.acks = s.acks ++ [ack] ∧ o.reply = some reply ∧
      natUpdate (recvLimit .ban) reply = some (answered ack) := by
  have hd := (dispatch_message h12 e.freed).1
  simp only [Request.dispatch, hcommand] at hd
  simp only [handleRequest, hd, Option.some.injEq] at h
  subst h
  refine ⟨_, _, rfl, rfl, ?_⟩
  have hdigit : (decimal 7).length = 1 := rfl
  have hread : (IpReads.of r.ip.text).reply = r.ip.text := rfl
  simp only [answered, recvLimit]
  rw [hread]
  exact natUpdate_ackText 7 (fun c hc => isPlain_of_mem_text hc) (by omega)

/-- **The wire format is agreed on up to 12 characters.** For every address, for both commands: a request sent alone is
understood by the server and its answer by the client, in every state the server can be in and whatever freed memory
holds, if and only if the address has at most 12 characters. -/
theorem wireFormat_iff (r : Request) : Agrees r ↔ r.ip.text.length ≤ 12 := by
  refine ⟨?_, ?_⟩
  · intro h
    exact (length_le_of_dispatch (h.accepted quiet).1).2.2
  · intro h12
    refine ⟨?_, recvAll_message r, dispatch_message h12, fun uninit => ispPrefix_address uninit r.ip,
      handleRequest_message h12, ?_⟩
    · have hip := text_length_le r.ip
      have hcommand := command_length r.command
      rw [message_length]
      unfold maxRequestMessageSize
      omega
    · intro s hs t hreach e o ho
      cases hcommand : r.command with
      | add => exact answer_add hcommand h12 (drawn_reaches hs hreach) ho
      | ban => exact answer_ban hcommand h12 ho

/-- BAN of the address of the server behind the NAT -/
def banServer : Request := ⟨.ban, ⟨192, 168, 1, 101⟩⟩

/-- **An address of 13 characters is not banned.** The request reads as it was written, but handleRequest acts on
freed memory. -/
theorem long_address_not_banned : recvAll banServer.message = "BAN;192.168.1.101".toList ∧ ¬ Agrees banServer := by
  refine ⟨by decide, ?_⟩
  intro h
  have hd := (h.accepted quiet).1
  revert hd
  decide

end NetSec.Filter
