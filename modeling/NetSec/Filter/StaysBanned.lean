/-
Does a suspicious source stay banned? (DNS/DNSHopCount.py with the BAN branch and the ban cleaner of NAT/NATServer.c)

The filter and the NAT server as one machine: time passes, a packet is handled, together with the BAN it may send and
the server's answer, or the server's cleaner expires a ban that is due. A BAN is acknowledged when NAT_update gets an
answer that it can read; otherwise there is no step.

`StaysBanned`: once a packet that fails the hop count check has been processed, the DROP rule of its source is in
FORWARD. The filter sends a BAN for a source once and never again, the server's ban lasts 7 seconds, and NAT_update's
result, the lifetime, is not used: the second suspicious packet of a source after that time is dropped by the filter,
but the source is not banned (`ban_not_renewed`). Neither is a source of more than 12 characters, ever.

- `stays_banned`: suspicious sources stay banned in every run in which each has at most 12 characters when the filter
  bans it, and an entry in bannedList whenever it is in `banned` (`BanStands`). In a run whose sources all have at most
  12 characters they do only then.
-/
import NetSec.Filter.HopCount
import NetSec.Filter.WireFormat
import NetSec.NatServer.Bans

namespace NetSec.Filter

open NetSec.NatServer NetSec.Run NetSec.Text

/-! ## The filter and the server -/

structure FilterNat where
  tables : Tables
  srv : Server

inductive FilterOp where
  | wait (d : ℕ)
  /-- a packet, and what the server reads from outside should it get a BAN -/
  | packet (pkt : Packet) (e : RequestEnv)
  | expireBan
deriving DecidableEq, Repr

/-- the server goes on, and NAT_update can read its answer -/
def acknowledged (o : Outcome) : Bool := o.survives && (o.reply.bind (natUpdate (recvLimit .ban))).isSome

/-- what the server does with the message that handle_dns sends -/
def deliver (e : RequestEnv) (dns : Handled) (s : Server) : Option Server :=
  match dns.sent with
  | none => some s
  | some message =>
    match handleRequest e (recvAll message) s with
    | none => none
    | some o => if acknowledged o then some o.srv else none

def filterStep (x : FilterNat) : FilterOp → Option FilterNat
  | .wait d => (step x.srv (.wait d)).map fun srv => { x with srv := srv }
  | .packet pkt e =>
    match (handlePacket pkt x.tables).2 with
    | none => some x
    | some dns => (deliver e dns x.srv).map fun srv => ⟨dns.tables, srv⟩
  | .expireBan => (step x.srv .expireBan).map fun srv => { x with srv := srv }

/-! ## Properties -/

/-- handle_dns has a saved hop count for the source, and the packet does not match it -/
def FailsCheck (t : Tables) (pkt : Packet) : Prop :=
  Judged pkt ∧ ∃ hopSaved, t.hops pkt.src.text = some hopSaved ∧ hopsMatch hopSaved pkt.ttl = false

/-- after a packet that fails the check, its source is banned -/
def StaysBanned (x : FilterNat) (o : FilterOp) (x' : FilterNat) : Prop :=
  match o with
  | .packet pkt _ => FailsCheck x.tables pkt → Rule.drop pkt.src.text ∈ x'.srv.fw.filter
  | _ => True

/-- a suspicious source has at most 12 characters, or, once it is in `banned`, an entry in bannedList -/
def BanStands (x : FilterNat) : FilterOp → Prop
  | .packet pkt _ => FailsCheck x.tables pkt →
    if x.tables.banned pkt.src.text then ∃ b ∈ x.srv.bannedList, b.ispPrefix = pkt.src.text
    else pkt.src.text.length ≤ 12
  | _ => True

/-- the packet's source has at most 12 characters -/
def ShortSource : FilterOp → Prop
  | .packet pkt _ => pkt.src.text.length ≤ 12
  | _ => True

/-- bans hold at the server, each address has one entry there, and the filter knows it -/
structure FilterInv (x : FilterNat) : Prop where
  server : BanInv x.srv
  hold : BansHold x.srv
  distinct : DistinctBans x.srv
  known : ∀ b ∈ x.srv.bannedList, x.tables.banned b.ispPrefix = true

theorem filterInv_start {t : Tables} {s : Server} (h : Start s) (hn : NoBanRule s.fw) : FilterInv ⟨t, s⟩ :=
  ⟨banInv_start h hn, bansHold_start h hn, by simp [DistinctBans, h.bans], by simp [h.bans]⟩

/-! ## What a packet does -/

/-- a packet that fails the check is banned at the server, or is in `banned` already -/
theorem handleDns_fails {pkt : Packet} {t : Tables} (h : FailsCheck t pkt) :
    handleDns pkt t = if t.banned pkt.src.text then ⟨some false, none, t⟩
      else
        ⟨some false, some (banMessage pkt.src.text),
          { t with banned := Function.update t.banned pkt.src.text true }⟩ := by
  obtain ⟨-, hopSaved, hhops, hm⟩ := h
  simp only [handleDns, hhops, hm, Bool.false_eq_true, if_false]

/-- a packet that does not fail sends nothing and bans nobody -/
theorem handlePacket_quiet {pkt : Packet} {t : Tables} (h : ¬ FailsCheck t pkt) {dns : Handled}
    (hdns : (handlePacket pkt t).2 = some dns) : dns.sent = none ∧ dns.tables.banned = t.banned := by
  by_cases hj : Judged pkt
  · rw [handlePacket_judged hj, Option.some.injEq] at hdns
    rw [← hdns]
    cases hhops : t.hops pkt.src.text with
    | none => simp only [handleDns, hhops, and_self]
    | some hopSaved =>
      have hm : hopsMatch hopSaved pkt.ttl = true := by
        by_contra hm
        exact h ⟨hj, hopSaved, hhops, Bool.not_eq_true _ ▸ hm⟩
      simp only [handleDns, hhops, hm, if_true, and_self]
  · obtain ⟨v, hv⟩ := handlePacket_of_not_judged hj t
    rw [hv] at hdns
    cases hdns

theorem filterStep_quiet {x x' : FilterNat} {pkt : Packet} {e : RequestEnv} (h : ¬ FailsCheck x.tables pkt)
    (hs : filterStep x (.packet pkt e) = some x') : x'.srv = x.srv ∧ x'.tables.banned = x.tables.banned := by
  simp only [filterStep] at hs
  split at hs
  · cases hs
    exact ⟨rfl, rfl⟩
  · rename_i dns hdns
    obtain ⟨hsent, hbanned⟩ := handlePacket_quiet h hdns
    simp only [deliver, hsent, Option.map_some, Option.some.injEq] at hs
    rw [← hs]
    exact ⟨rfl, hbanned⟩

/-- a suspicious packet of a source in `banned` changes nothing -/
theorem filterStep_banned {x x' : FilterNat} {pkt : Packet} {e : RequestEnv} (h : FailsCheck x.tables pkt)
    (hb : x.tables.banned pkt.src.text = true) (hs : filterStep x (.packet pkt e) = some x') : x' = x := by
  simp only [filterStep, handlePacket_judged h.1, handleDns_fails h, hb, if_true, deliver, Option.map_some,
    Option.some.injEq] at hs
  exact hs.symm

/-- the first suspicious packet of a source of at most 12 characters bans it -/
theorem filterStep_bans {x x' : FilterNat} {pkt : Packet} {e : RequestEnv} (h : FailsCheck x.tables pkt)
    (hb : x.tables.banned pkt.src.text = false) (h12 : pkt.src.text.length ≤ 12)
    (hs : filterStep x (.packet pkt e) = some x') : step x.srv (.ban pkt.src.text e.waitStamp) = some x'.srv ∧
      x'.tables.banned = Function.update x.tables.banned pkt.src.text true := by
  have hmessage : banMessage pkt.src.text = Request.message ⟨.ban, pkt.src⟩ := rfl
  have hrequest := handleRequest_message (r := ⟨.ban, pkt.src⟩) h12 e x.srv
  simp only [filterStep, handlePacket_judged h.1, handleDns_fails h, hb, Bool.false_eq_true, if_false, deliver,
    hmessage, recvAll_message] at hs
  cases ho : handleRequest e (Request.message ⟨.ban, pkt.src⟩) x.srv with
  | none => simp [ho] at hs
  | some o =>
    rw [ho] at hs hrequest
    simp only at hs
    split_ifs at hs
    · simp only [Option.map_some, Option.some.injEq] at hs
      rw [← hs]
      exact ⟨hrequest.symm, rfl⟩
    · cases hs

/-! ## The invariant -/

/-- a step of the server that bans nobody -/
theorem filterInv_srv {x : FilterNat} {s : Server} {o : Op} (h : FilterInv x) (hc : NoReban x.srv o)
    (hr : ReleaseClear x.srv o) (hsub : ∀ b ∈ s.bannedList, b ∈ x.srv.bannedList) (hs : step x.srv o = some s) :
    FilterInv { x with srv := s } :=
  ⟨banInv_step x.srv o s h.server hs, (bansHold_step h.server h.hold hs).2 hr, distinctBans_step h.distinct hc hs,
    fun b hb => h.known b (hsub b hb)⟩

theorem releaseClear_expireBan {s : Server} (h : DistinctBans s) : ReleaseClear s .expireBan := by
  intro b rest hl b' hb'
  unfold DistinctBans at h
  rw [hl, List.pairwise_cons] at h
  exact (h.1 b' hb').symm

theorem filterInv_ban {x x' : FilterNat} {ip : Text} {w : ℕ} (h : FilterInv x) (hb : x.tables.banned ip = false)
    (hs : step x.srv (.ban ip w) = some x'.srv) (ht : x'.tables.banned = Function.update x.tables.banned ip true) :
    FilterInv x' := by
  have hc : NoReban x.srv (.ban ip w) := by
    rintro b hmem rfl
    rw [h.known b hmem] at hb
    cases hb
  refine ⟨banInv_step _ _ _ h.server hs, (bansHold_step h.server h.hold hs).2 trivial,
    distinctBans_step h.distinct hc hs, ?_⟩
  intro b hmem
  simp only [step, Option.some.injEq] at hs
  rw [← hs] at hmem
  rw [ht]
  rcases List.mem_append.1 hmem with hmem | hmem
  · rw [Function.update_apply]
    split_ifs
    · rfl
    · exact h.known b hmem
  · rw [List.mem_singleton.1 hmem]
    exact Function.update_self _ _ _

/-- **One step.** With the invariant, a step that meets the condition keeps it, and such a step is right; a step whose
source is short is right only if it meets the condition. -/
theorem filterStep_good {x x' : FilterNat} {o : FilterOp} (h : FilterInv x) (hs : filterStep x o = some x') :
    (BanStands x o → StaysBanned x o x' ∧ FilterInv x') ∧
      (ShortSource o → (StaysBanned x o x' ↔ BanStands x o) ∧ FilterInv x') := by
  cases o with
  | wait d =>
    simp only [filterStep, Option.map_eq_some_iff] at hs
    obtain ⟨s, hstep, rfl⟩ := hs
    have hinv := filterInv_srv (o := .wait d) h trivial trivial (fun b hb => by cases hstep; exact hb) hstep
    exact ⟨fun _ => ⟨trivial, hinv⟩, fun _ => ⟨Iff.rfl, hinv⟩⟩
  | expireBan =>
    simp only [filterStep, Option.map_eq_some_iff] at hs
    obtain ⟨s, hstep, rfl⟩ := hs
    have hsub : ∀ b ∈ s.bannedList, b ∈ x.srv.bannedList := by
      obtain ⟨b, rest, hl, -, rfl⟩ := step_expireBan hstep
      intro b' hb'
      rw [hl]
      exact List.mem_cons_of_mem _ hb'
    have hinv := filterInv_srv (o := .expireBan) h trivial (releaseClear_expireBan h.distinct) hsub hstep
    exact ⟨fun _ => ⟨trivial, hinv⟩, fun _ => ⟨Iff.rfl, hinv⟩⟩
  | packet pkt e =>
    by_cases hf : FailsCheck x.tables pkt
    · cases hb : x.tables.banned pkt.src.text with
      | true =>
        obtain rfl := filterStep_banned hf hb hs
        have hiff : StaysBanned x' (.packet pkt e) x' ↔ BanStands x' (.packet pkt e) := by
          simp only [StaysBanned, BanStands, hb, if_true]
          exact imp_congr_right fun _ => h.hold.1 _
        exact ⟨fun hc => ⟨hiff.2 hc, h⟩, fun _ => ⟨hiff, h⟩⟩
      | false =>
        -- with at most 12 characters the BAN is carried out
        have hgood : pkt.src.text.length ≤ 12 → StaysBanned x (.packet pkt e) x' ∧ FilterInv x' := by
          intro h12
          obtain ⟨hstep, ht⟩ := filterStep_bans hf hb h12 hs
          refine ⟨?_, filterInv_ban h hb hstep ht⟩
          intro _
          simp only [step, Option.some.injEq] at hstep
          rw [← hstep]
          simp [banRequest]
        refine ⟨?_, ?_⟩
        · intro hc
          have h12 := hc hf
          rw [hb, if_neg (by simp)] at h12
          exact hgood h12
        · intro h12
          obtain ⟨hstays, hinv⟩ := hgood h12
          refine ⟨iff_of_true hstays ?_, hinv⟩
          intro _
          rw [hb, if_neg (by simp)]
          exact h12
    · obtain ⟨hsrv, hbanned⟩ := filterStep_quiet hf hs
      have hinv : FilterInv x' :=
        ⟨hsrv ▸ h.server, hsrv ▸ h.hold, hsrv ▸ h.distinct, by rw [hsrv, hbanned]; exact h.known⟩
      exact ⟨fun _ => ⟨fun hf' => absurd hf' hf, hinv⟩,
        fun _ => ⟨iff_of_true (fun hf' => absurd hf' hf) (fun hf' => absurd hf' hf), hinv⟩⟩

/-! ## Runs -/

/-- **Suspicious sources stay banned while their entries do.** From a server with no DROP rule in FORWARD and any tables
of the filter: in every run whose steps meet `BanStands`, once a packet that fails the check has been processed, its
source is banned; and if no source is longer than 12 characters, only then. -/
theorem stays_banned (t : Tables) {s : Server} (h : Start s) (hn : NoBanRule s.fw) (ops : List FilterOp) :
    (EveryStep filterStep (fun x o _ => BanStands x o) ⟨t, s⟩ ops → EveryStep filterStep StaysBanned ⟨t, s⟩ ops) ∧
      ((∀ o ∈ ops, ShortSource o) → (EveryStep filterStep StaysBanned ⟨t, s⟩ ops ↔
        EveryStep filterStep (fun x o _ => BanStands x o) ⟨t, s⟩ ops)) := by
  have h0 := filterInv_start (t := t) h hn
  refine ⟨?_, ?_⟩
  · intro hc
    have hiff := everyStep_iff filterStep (I := FilterInv) (G := fun x o x' => BanStands x o ∧ StaysBanned x o x')
      (C := fun x o _ => BanStands x o) (fun x o x' hi hs => ⟨⟨fun hg => hg.1,
        fun hc => ⟨hc, ((filterStep_good hi hs).1 hc).1⟩⟩, fun hg => ((filterStep_good hi hs).1 hg.1).2⟩) h0 ops
    exact (hiff.2 hc).imp fun _ _ _ hg => hg.2
  · intro hshort
    have hiff := everyStep_iff filterStep (I := FilterInv) (G := fun x o x' => ShortSource o ∧ StaysBanned x o x')
      (C := fun x o _ => ShortSource o ∧ BanStands x o) (fun x o x' hi hs =>
        ⟨and_congr_right fun hq => ((filterStep_good hi hs).2 hq).1,
          fun hg => ((filterStep_good hi hs).2 hg.1).2⟩) h0 ops
    rwa [everyStep_and_of_forall hshort, everyStep_and_of_forall hshort] at hiff

/-- a first packet of 10.4.11.17, and one that fails the check -/
def suspicion : List FilterOp := [.packet (dnsPacket 64) plainEnv, .packet (dnsPacket 10) plainEnv]

theorem stays_banned_boot :
    (EveryStep filterStep (fun x o _ => BanStands x o) ⟨emptyTables, bootServer⟩ suspicion →
        EveryStep filterStep StaysBanned ⟨emptyTables, bootServer⟩ suspicion) ∧
      ((∀ o ∈ suspicion, ShortSource o) → (EveryStep filterStep StaysBanned ⟨emptyTables, bootServer⟩ suspicion ↔
        EveryStep filterStep (fun x o _ => BanStands x o) ⟨emptyTables, bootServer⟩ suspicion)) :=
  stays_banned emptyTables bootServer_start bootServer_noBanRule suspicion

/-- the ban is over, and the source sends another packet that fails the check -/
def relapse : List FilterOp := suspicion ++ [.wait 7, .expireBan]

/-- **A ban is not renewed.** The second suspicious packet of 10.4.11.17, 7 seconds after the first, sends no BAN. -/
theorem ban_not_renewed : Start bootServer ∧ NoBanRule bootServer.fw ∧
    ¬ EveryStep filterStep StaysBanned ⟨emptyTables, bootServer⟩ (relapse ++ [.packet (dnsPacket 10) plainEnv]) := by
  refine ⟨bootServer_start, bootServer_noBanRule, ?_⟩
  intro h
  obtain ⟨x, hx, x', hx', hj, hhops, hrule⟩ : ∃ x, run filterStep ⟨emptyTables, bootServer⟩ relapse = some x ∧
      ∃ x', filterStep x (.packet (dnsPacket 10) plainEnv) = some x' ∧ Judged (dnsPacket 10) ∧
        x.tables.hops (dnsPacket 10).src.text = some 64 ∧ Rule.drop (dnsPacket 10).src.text ∉ x'.srv.fw.filter :=
    ⟨_, rfl, _, rfl, by decide, by decide, by decide⟩
  exact hrule (h relapse _ (List.prefix_refl _) x x' hx hx' ⟨hj, 64, hhops, by decide⟩)

end NetSec.Filter
