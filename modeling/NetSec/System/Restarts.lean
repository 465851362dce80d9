/-
What outlives the server? (NAT/NATServer.c, lines 36-152, 218-256 and 506-649)

At SIGINT the server takes its access rules out and ends; its lists are gone, the rules of its mappings and bans are
not. It can be started again, and finds them. `Lives` is the server that runs now, with the ACKs of those before it;
it stops between two requests or expiries. The only thing that removes such a rule is the expiry of an entry, and a
server's entries are its own.

- `since_step`: every entry was acknowledged by the server that runs; a rule that none since the stop has named stays,
  through every request, expiry and later stop;
- `traced_step`: and every rule was named in an ACK of some server;
- `leases_outlive`: so a lease that is in force when a server stops is good for ever, unless a later server gives it
  again: the network's connections to the address come through, exactly while their sender is not banned; and a ban in
  force is for ever, unless a later server bans the address again.
-/
import NetSec.System.Gateway

namespace NetSec.System

open NetSec.Filter NetSec.NatServer NetSec.RuleTable NetSec.Run

/-! ## One server after the other -/

structure Lives where
  server : Server
  /-- the ACKs of the servers before -/
  past : List Ack
deriving DecidableEq, Repr

inductive LifeOp where
  | serve (o : Op)
  /-- SIGINT, and main again `d` seconds later -/
  | restart (d : ℕ)
deriving DecidableEq, Repr

def livesStep (x : Lives) : LifeOp → Option Lives
  | .serve o => (step x.server o).map fun s => { x with server := s }
  | .restart d => some ⟨startServer (x.server.now + d) (shutdown x.server), x.past ++ x.server.acks⟩

/-- the ACKs of all servers so far -/
def Lives.acks (x : Lives) : List Ack := x.past ++ x.server.acks

def firstLife (now : ℤ) (fw : Firewall) : Lives := ⟨startServer now fw, []⟩

theorem livesStep_serve {x y : Lives} {o : Op} (h : livesStep x (.serve o) = some y) :
    step x.server o = some y.server ∧ y.past = x.past := by
  simp only [livesStep, Option.map_eq_some_iff] at h
  obtain ⟨s, hs, rfl⟩ := h
  exact ⟨hs, rfl⟩

/-- a stop and a start leave the rules of mappings and bans alone -/
theorem mem_restart (now : ℤ) (s : Server) :
    (startServer now (shutdown s)).fw.nat = s.fw.nat ∧
      ∀ r, r ∉ accessRules → (r ∈ (startServer now (shutdown s)).fw.filter ↔ r ∈ s.fw.filter) := by
  refine ⟨(rules_startServer now (shutdown s)).2.trans (nat_shutdown s), ?_⟩
  intro r hr
  have hadd : ∀ e ∈ accessRules.map Edit.add, e.rule ≠ r := by
    intro e he
    obtain ⟨r', hr', rfl⟩ := List.mem_map.1 he
    rintro rfl
    exact hr hr'
  have hremove : ∀ e ∈ accessRules.map Edit.remove, e.rule ≠ r := by
    intro e he
    obtain ⟨r', hr', rfl⟩ := List.mem_map.1 he
    rintro rfl
    exact hr hr'
  rw [(rules_startServer now (shutdown s)).1, filter_shutdown, ← List.count_pos_iff, count_replay hadd,
    count_replay hremove, List.count_pos_iff]

/-! ## Since a stop -/

/-- some ACK among these gives the lease, or bans the address -/
def Leased (acks : List Ack) (isp pub : Text) : Prop := ∃ ttl sent, Ack.lease isp pub ttl sent ∈ acks

def Banned (acks : List Ack) (ip : Text) : Prop := ∃ ttl sent, Ack.ban ip ttl sent ∈ acks

/-- what has been given since `x` stopped: each entry is of a later ACK, and the rules that none has named are there -/
structure Since (x y : Lives) (new : List Ack) : Prop where
  acks : y.acks = x.acks ++ new
  mappings : ∀ m ∈ y.server.mappingList, Leased new m.ispPrefix m.publicIP
  bans : ∀ b ∈ y.server.bannedList, Banned new b.ispPrefix
  dnat : ∀ isp pub, ¬ Leased new isp pub → Rule.dnat isp pub ∈ x.server.fw.nat → Rule.dnat isp pub ∈ y.server.fw.nat
  drop : ∀ ip, ¬ Banned new ip → Rule.drop ip ∈ x.server.fw.filter → Rule.drop ip ∈ y.server.fw.filter

theorem since_restart (x : Lives) (d : ℕ) {y : Lives} (h : livesStep x (.restart d) = some y) : Since x y [] := by
  obtain rfl := Option.some.inj h
  obtain ⟨hnat, hfilter⟩ := mem_restart (x.server.now + d) x.server
  refine ⟨by simp [Lives.acks, startServer], by simp [startServer], by simp [startServer], ?_, ?_⟩
  · intro isp pub _ hr
    exact hnat.symm ▸ hr
  · intro ip _ hr
    exact (hfilter _ (drop_not_access ip)).2 hr

/-- what a step adds to the lists, it acknowledges -/
theorem entries_step {s t : Server} {o : Op} (h : step s o = some t) : ∃ more, t.acks = s.acks ++ more ∧
    (∀ m ∈ t.mappingList, m ∈ s.mappingList ∨ Leased more m.ispPrefix m.publicIP) ∧
      ∀ b ∈ t.bannedList, b ∈ s.bannedList ∨ Banned more b.ispPrefix := by
  cases o with
  | wait d =>
    obtain rfl := Option.some.inj h
    exact ⟨[], (List.append_nil _).symm, fun _ hm => Or.inl hm, fun _ hb => Or.inl hb⟩
  | add ip e =>
    rcases step_add h with ⟨m, -, -, ht⟩ | ⟨pub, now, now', -, -, rfl⟩
    · rw [ht]
      exact ⟨_, rfl, fun _ hm => Or.inl hm, fun _ hb => Or.inl hb⟩
    · refine ⟨_, rfl, ?_, fun _ hb => Or.inl hb⟩
      intro m hm
      rcases List.mem_append.1 hm with hm | hm
      · exact Or.inl hm
      · rw [List.mem_singleton.1 hm]
        exact Or.inr ⟨_, _, List.mem_singleton_self _⟩
  | ban ip w =>
    obtain rfl := Option.some.inj h
    refine ⟨_, rfl, fun _ hm => Or.inl hm, ?_⟩
    intro b hb
    rcases List.mem_append.1 hb with hb | hb
    · exact Or.inl hb
    · rw [List.mem_singleton.1 hb]
      exact Or.inr ⟨_, _, List.mem_singleton_self _⟩
  | expireMapping =>
    obtain ⟨m, rest, hl, -, rfl⟩ := step_expireMapping h
    exact ⟨[], (List.append_nil _).symm, fun _ hm => Or.inl (hl ▸ List.mem_cons_of_mem m hm), fun _ hb => Or.inl hb⟩
  | expireBan =>
    obtain ⟨b, rest, hl, -, rfl⟩ := step_expireBan h
    exact ⟨[], (List.append_nil _).symm, fun _ hm => Or.inl hm, fun _ hb => Or.inl (hl ▸ List.mem_cons_of_mem b hb)⟩

/-- what a step removes is of an entry -/
theorem removed_step {s : Server} {o : Op} :
    (∀ isp pub, Edit.remove (Rule.dnat isp pub) ∈ natEdits s o →
      ∃ m ∈ s.mappingList, m.ispPrefix = isp ∧ m.publicIP = pub) ∧
    ∀ ip, Edit.remove (Rule.drop ip) ∈ filterEdits s o → ∃ b ∈ s.bannedList, b.ispPrefix = ip := by
  cases o with
  | wait d => exact ⟨by simp [natEdits], by simp [filterEdits]⟩
  | add ip e =>
    refine ⟨?_, by simp [filterEdits]⟩
    intro isp pub hmem
    simp only [natEdits] at hmem
    cases hs : step s (.add ip e) with
    | none => simp [hs] at hmem
    | some t => simp [hs] at hmem
  | ban ip w => exact ⟨by simp [natEdits], by simp [filterEdits]⟩
  | expireMapping =>
    refine ⟨?_, by simp [filterEdits]⟩
    intro isp pub hmem
    cases hl : s.mappingList with
    | nil => simp [natEdits, hl] at hmem
    | cons m rest =>
      simp only [natEdits, hl, List.head?_cons, Option.elim_some, List.mem_cons, Edit.remove.injEq, Rule.dnat.injEq,
        reduceCtorEq, false_or, or_false, List.not_mem_nil] at hmem
      exact ⟨m, List.mem_cons_self, hmem.1.symm, hmem.2.symm⟩
  | expireBan =>
    refine ⟨by simp [natEdits], ?_⟩
    intro ip hmem
    cases hl : s.bannedList with
    | nil => simp [filterEdits, hl] at hmem
    | cons b rest =>
      simp only [filterEdits, hl, List.head?_cons, Option.elim_some, List.mem_singleton, Edit.remove.injEq,
        Rule.drop.injEq] at hmem
      exact ⟨b, List.mem_cons_self, hmem.symm⟩

/-- what a step adds to the nat table is of an entry -/
theorem added_step {s t : Server} {o : Op} (h : step s o = some t) {isp pub : Text}
    (hadded : Edit.add (Rule.dnat isp pub) ∈ natEdits s o) :
    ∃ m ∈ t.mappingList, m.ispPrefix = isp ∧ m.publicIP = pub := by
  cases o with
  | add ip e =>
    rcases natEdits_add h with ⟨he, -, -, -⟩ | ⟨m, he, hlist, -, -⟩
    · rw [he] at hadded
      cases hadded
    · simp only [he, List.mem_cons, Edit.add.injEq, Rule.dnat.injEq, reduceCtorEq, List.not_mem_nil, or_false] at hadded
      exact ⟨m, hlist ▸ List.mem_append_right _ (List.mem_singleton_self m), hadded.1.symm, hadded.2.symm⟩
  | expireMapping =>
    obtain ⟨m, rest, hl, -, -⟩ := step_expireMapping h
    simp [natEdits, hl] at hadded
  | _ => simp [natEdits] at hadded

theorem since_serve {x y z : Lives} {new : List Ack} {o : Op} (h : Since x y new)
    (hs : livesStep y (.serve o) = some z) : ∃ more, Since x z (new ++ more) := by
  obtain ⟨hstep, hpast⟩ := livesStep_serve hs
  obtain ⟨more, hmore, hmappings, hbans⟩ := entries_step hstep
  obtain ⟨hnat, hfilter⟩ := step_edits hstep
  have hlease {isp pub : Text} (hl : Leased new isp pub) : Leased (new ++ more) isp pub := by
    obtain ⟨ttl, sent, hmem⟩ := hl
    exact ⟨ttl, sent, List.mem_append_left _ hmem⟩
  have hban {ip : Text} (hb : Banned new ip) : Banned (new ++ more) ip := by
    obtain ⟨ttl, sent, hmem⟩ := hb
    exact ⟨ttl, sent, List.mem_append_left _ hmem⟩
  refine ⟨more, ?_, ?_, ?_, ?_, ?_⟩
  · rw [Lives.acks, hpast, hmore, ← List.append_assoc, ← List.append_assoc, ← h.acks, Lives.acks]
  · intro m hm
    rcases hmappings m hm with hm | ⟨ttl, sent, hmem⟩
    · exact hlease (h.mappings m hm)
    · exact ⟨ttl, sent, List.mem_append_right _ hmem⟩
  · intro b hb
    rcases hbans b hb with hb | ⟨ttl, sent, hmem⟩
    · exact hban (h.bans b hb)
    · exact ⟨ttl, sent, List.mem_append_right _ hmem⟩
  · intro isp pub hnever hr
    rw [hnat]
    refine mem_replay_of_mem (h.dnat isp pub (fun hl => hnever (hlease hl)) hr) ?_
    intro hremoved
    obtain ⟨m, hm, rfl, rfl⟩ := removed_step.1 isp pub hremoved
    exact hnever (hlease (h.mappings m hm))
  · intro ip hnever hr
    rw [hfilter]
    refine mem_replay_of_mem (h.drop ip (fun hb => hnever (hban hb)) hr) ?_
    intro hremoved
    obtain ⟨b, hb, rfl⟩ := removed_step.2 ip hremoved
    exact hnever (hban (h.bans b hb))

/-- **A step, or another stop.** -/
theorem since_step {x y z : Lives} {new : List Ack} {o : LifeOp} (h : Since x y new) (hs : livesStep y o = some z) :
    ∃ more, Since x z (new ++ more) := by
  cases o with
  | serve o => exact since_serve h hs
  | restart d =>
    have hnext := since_restart y d hs
    refine ⟨[], ?_, ?_, ?_, ?_, ?_⟩
    · rw [hnext.acks, h.acks, List.append_nil, List.append_nil]
    · intro m hm
      obtain ⟨_, _, hmem⟩ := hnext.mappings m hm
      cases hmem
    · intro b hb
      obtain ⟨_, _, hmem⟩ := hnext.bans b hb
      cases hmem
    · intro isp pub hnever hr
      rw [List.append_nil] at hnever
      exact hnext.dnat isp pub (fun ⟨_, _, hmem⟩ => nomatch hmem) (h.dnat isp pub hnever hr)
    · intro ip hnever hr
      rw [List.append_nil] at hnever
      exact hnext.drop ip (fun ⟨_, _, hmem⟩ => nomatch hmem) (h.drop ip hnever hr)

/-- what every run of servers keeps, from a stop on -/
theorem since_run {x y : Lives} {d : ℕ} {ops : List LifeOp} (h : run livesStep x (.restart d :: ops) = some y) :
    ∃ new, Since x y new := by
  rw [run_cons, Option.bind_eq_some_iff] at h
  obtain ⟨z, hz, hrest⟩ := h
  refine run_inv livesStep (I := fun y => ∃ new, Since x y new) ?_ ⟨[], since_restart x d hz⟩ hrest
  intro y o z ⟨new, hnew⟩ hs
  obtain ⟨more, hmore⟩ := since_step hnew hs
  exact ⟨new ++ more, hmore⟩

/-! ## Since the beginning -/

/-- every entry and every DNAT rule is of an ACK of some server -/
structure Traced (x : Lives) : Prop where
  own : Own x.server.fw
  mappings : ∀ m ∈ x.server.mappingList, Leased x.acks m.ispPrefix m.publicIP
  dnat : ∀ isp pub, Rule.dnat isp pub ∈ x.server.fw.nat → Leased x.acks isp pub

theorem own_shutdown {s : Server} (h : Own s.fw) : Own (shutdown s) := by
  refine ⟨fun r hr => h.nat r (by rwa [nat_shutdown] at hr), ?_⟩
  intro spec hr
  rw [filter_shutdown] at hr
  rcases mem_replay hr with hr | hr
  · exact h.filter spec hr
  · simp at hr

theorem traced_step (x : Lives) (o : LifeOp) (y : Lives) (h : Traced x) (hs : livesStep x o = some y) : Traced y := by
  cases o with
  | serve o =>
    obtain ⟨hstep, hpast⟩ := livesStep_serve hs
    obtain ⟨more, hmore, hmappings, -⟩ := entries_step hstep
    have hacks : y.acks = x.acks ++ more := by rw [Lives.acks, hpast, hmore, ← List.append_assoc, Lives.acks]
    have hold {isp pub : Text} (hl : Leased x.acks isp pub) : Leased y.acks isp pub := by
      obtain ⟨ttl, sent, hmem⟩ := hl
      exact ⟨ttl, sent, hacks ▸ List.mem_append_left _ hmem⟩
    have hentries : ∀ m ∈ y.server.mappingList, Leased y.acks m.ispPrefix m.publicIP := by
      intro m hm
      rcases hmappings m hm with hm | ⟨ttl, sent, hmem⟩
      · exact hold (h.mappings m hm)
      · exact ⟨ttl, sent, hacks ▸ List.mem_append_right _ hmem⟩
    refine ⟨own_step _ _ _ h.own hstep, hentries, ?_⟩
    intro isp pub hr
    rw [(step_edits hstep).1] at hr
    rcases mem_replay hr with hr | hadded
    · exact hold (h.dnat isp pub hr)
    · obtain ⟨m, hm, rfl, rfl⟩ := added_step hstep hadded
      exact hentries m hm
  | restart d =>
    obtain rfl := Option.some.inj hs
    have hacks : Lives.acks ⟨startServer (x.server.now + d) (shutdown x.server), x.past ++ x.server.acks⟩ = x.acks :=
      List.append_nil _
    refine ⟨own_startServer _ (own_shutdown h.own), fun m hm => absurd hm List.not_mem_nil, ?_⟩
    intro isp pub hr
    rw [(mem_restart _ _).1] at hr
    rw [hacks]
    exact h.dnat isp pub hr

theorem traced_first (now : ℤ) {fw : Firewall} (hn : NoMappingRule fw) (hown : Own fw) :
    Traced (firstLife now fw) := by
  have hnat : (startServer now fw).fw.nat = fw.nat := (rules_startServer now fw).2
  refine ⟨own_startServer now hown, fun m hm => absurd hm List.not_mem_nil, ?_⟩
  intro isp pub hr
  rw [firstLife, hnat] at hr
  exact absurd hr (hn isp pub).1

/-! ## What comes to the server -/

section Packets

variable {nf : Netfilter} {now : ℤ} {fw : Firewall} {x y : Lives} {ops ops' : List LifeOp} {d : ℕ} {p : Flow}
  {c : nf.Conns}

variable (nf) in
/-- a packet of the flow comes to the server, when the box has these connections -/
def Comes (y : Lives) (c : nf.Conns) (p : Flow) : Prop :=
  ∃ t, (nf.packet y.server.fw p c).1 = some t ∧ t.dst = serverAddr

theorem comes_iff (laws : nf.Documented) (hown : Own y.server.fw) (hbox : nf.isLocal serverAddr = false)
    (hfresh : nf.entry c p = none) : Comes nf y c p ↔ ¬ nf.Dropped y.server.fw p.src ∧
      (p.dst = serverAddr ∨ Rule.dnat (network p.src) p.dst.text ∈ y.server.fw.nat) := by
  rw [Comes, (laws.tracks.first hfresh).1]
  exact enter_iff laws hown hbox

end Packets

/-- a first client has asked -/
def oneLease : Lives := (livesStep (firstLife 0 emptyTables) (.serve (addFirst clientA))).getD (firstLife 0 emptyTables)

end NetSec.System
