/-
What does shutdown leave in the firewall? (NAT/NATServer.c, lines 117-152 and 218-256.)

main sets up the access rules on whatever tables it finds (`startServer`), serves, and at SIGINT takes the access rules
out again (`shutdown`). Nothing remembers what was there before: the policy of INPUT becomes ACCEPT, an access rule is
removed whether or not it was the server's, and the rules of mappings and bans stay as they are. So the tables are not
always what they were (`not_restored`).

What a step writes to a table is a list of edits (`natEdits`, `filterEdits`), which do not depend on the table.

- `shutdown_tables`: in every run, what the edits of the run make of the initial tables, one copy of each access rule
  taken out;
- `shutdown_effect`: so rules that neither main nor the run names stay, in number and order; and where the tables hold
  none of the rules the run writes, they are restored exactly when the policy was ACCEPT, no access rule was there, no
  ADD was handled, and no rule of a ban is in place when the server stops.
-/
import NetSec.NatServer.Bans

namespace NetSec.NatServer

open NetSec.Run NetSec.RuleTable

/-! ## From start to shutdown -/

/-- main up to its loop -/
def startServer (now : ℤ) (fw : Firewall) : Server := ⟨now, insertNATAccessRules fw, [], [], []⟩

/-- main after its loop -/
def shutdown (s : Server) : Firewall := deleteNATAccessRules s.fw

/-- the rules of both tables and the policy of INPUT are the same -/
structure SameTables (fw fw' : Firewall) : Prop where
  filter : fw.filter = fw'.filter
  nat : fw.nat = fw'.nat
  inputPolicy : fw.inputPolicy = fw'.inputPolicy

/-- the rules that main adds and removes -/
def accessRules : List Rule := [.inputLo, .inputSsh, .inputFrom serverIp, .inputFrom dnsIp]

/-- what a step writes to the nat table -/
def natEdits (s : Server) : Op → List (Edit Rule)
  | .add ip e => ((step s (.add ip e)).map fun t => (t.mappingList.drop s.mappingList.length).flatMap fun m =>
      [.add (.dnat m.ispPrefix m.publicIP), .add (.snat m.ispPrefix m.publicIP)]).getD []
  | .expireMapping => s.mappingList.head?.elim [] fun m =>
      [.add (.dnatEstablished m.ispPrefix m.publicIP), .add (.snatEstablished m.ispPrefix m.publicIP),
        .remove (.dnat m.ispPrefix m.publicIP), .remove (.snat m.ispPrefix m.publicIP)]
  | _ => []

/-- what a step writes to the filter table -/
def filterEdits (s : Server) : Op → List (Edit Rule)
  | .ban ip _ => [.add (.drop ip)]
  | .expireBan => s.bannedList.head?.elim [] fun b => [.remove (.drop b.ispPrefix)]
  | _ => []

/-! ## The access rules -/

theorem filter_insertNATAccessRules (fw : Firewall) :
    (insertNATAccessRules fw).filter = replay (accessRules.map .add) fw.filter := by
  simp [insertNATAccessRules, system, accessRules, Edit.apply]

theorem filter_deleteNATAccessRules (fw : Firewall) :
    (deleteNATAccessRules fw).filter = replay (accessRules.map .remove) fw.filter := by
  simp [deleteNATAccessRules, system, accessRules, Edit.apply]

theorem nat_deleteNATAccessRules (fw : Firewall) : (deleteNATAccessRules fw).nat = fw.nat := by
  simp [deleteNATAccessRules, system]

theorem inputPolicy_checkAddRule (t : Table) (command : Action) (r : Rule) (fw : Firewall) :
    (checkAddRule t command r fw).inputPolicy = fw.inputPolicy := by
  cases command <;> simp only [checkAddRule, system] <;> split_ifs <;> cases t <;> rfl

theorem inputPolicy_deleteNATAccessRules (fw : Firewall) : (deleteNATAccessRules fw).inputPolicy = .accept := by
  simp [deleteNATAccessRules, system, inputPolicy_checkAddRule]

/-- the tables when the loop begins -/
theorem rules_startServer (now : ℤ) (fw : Firewall) :
    (startServer now fw).fw.filter = replay (accessRules.map .add) fw.filter ∧
      (startServer now fw).fw.nat = fw.nat := by
  rw [startServer]
  exact ⟨filter_insertNATAccessRules fw, nat_insertNATAccessRules fw⟩

theorem filter_shutdown (s : Server) : (shutdown s).filter = replay (accessRules.map .remove) s.fw.filter := by
  rw [shutdown, filter_deleteNATAccessRules]

theorem nat_shutdown (s : Server) : (shutdown s).nat = s.fw.nat := by rw [shutdown, nat_deleteNATAccessRules]

theorem accessRules_nodup : accessRules.Nodup := by decide

theorem drop_not_access (ip : Text) : Rule.drop ip ∉ accessRules := by simp [accessRules]

/-! ## What a run writes -/

/-- no ADD writes anything but the two rules of a new mapping -/
theorem natEdits_add {s t : Server} {ip : Text} {e : AddEnv} (h : step s (.add ip e) = some t) :
    (natEdits s (.add ip e) = [] ∧ t.mappingList = s.mappingList ∧ t.fw = s.fw ∧ s.mappingList ≠ []) ∨
      ∃ m, natEdits s (.add ip e) = [.add (.dnat m.ispPrefix m.publicIP), .add (.snat m.ispPrefix m.publicIP)] ∧
        t.mappingList = s.mappingList ++ [m] ∧ t.fw.filter = s.fw.filter ∧
        t.fw.nat = replay (natEdits s (.add ip e)) s.fw.nat := by
  simp only [natEdits, h, Option.map_some, Option.getD_some]
  rcases step_add h with ⟨m, hrun, -, ht⟩ | ⟨pub, now, now', -, -, ht⟩
  · left
    have hmem := (runningLease_some hrun).2.1
    rw [ht]
    simp [List.ne_nil_of_mem hmem]
  · right
    refine ⟨⟨now' + e.waitStamp, ispPrefix e.uninit ip, pub⟩, ?_⟩
    rw [ht]
    simp [install, Edit.apply]

/-- **What a step writes**, on any tables -/
theorem step_edits {s t : Server} {o : Op} (h : step s o = some t) :
    t.fw.nat = replay (natEdits s o) s.fw.nat ∧ t.fw.filter = replay (filterEdits s o) s.fw.filter := by
  cases o with
  | wait d =>
    obtain rfl := Option.some.inj h
    exact ⟨rfl, rfl⟩
  | add ip e =>
    rcases natEdits_add h with ⟨he, -, hfw, -⟩ | ⟨m, -, -, hfilter, hnat⟩
    · rw [he, hfw]
      exact ⟨rfl, rfl⟩
    · exact ⟨hnat, hfilter⟩
  | ban ip w =>
    obtain rfl := Option.some.inj h
    simp [banRequest, natEdits, filterEdits, Edit.apply]
  | expireMapping =>
    obtain ⟨m, rest, hl, -, rfl⟩ := step_expireMapping h
    refine ⟨?_, filter_handleExpiredMap m s.fw⟩
    simp [nat_handleExpiredMap, natEdits, hl, Edit.apply]
  | expireBan =>
    obtain ⟨b, rest, hl, -, rfl⟩ := step_expireBan h
    simp [handleExpiredBan, natEdits, filterEdits, hl, Edit.apply]

variable {now : ℤ} {fw : Firewall} {ops : List Op} {s : Server}

theorem run_edits {s0 : Server} (h : run step s0 ops = some s) :
    s.fw.nat = replay (gather step natEdits s0 ops) s0.fw.nat ∧
      s.fw.filter = replay (gather step filterEdits s0 ops) s0.fw.filter := by
  have hstep : ∀ t o t' l, t.fw.nat = replay l s0.fw.nat → step t o = some t' →
      t'.fw.nat = replay (l ++ natEdits t o) s0.fw.nat := by
    intro t o t' l ht hs
    rw [(step_edits hs).1, ht, replay_append]
  have hstep' : ∀ t o t' l, t.fw.filter = replay l s0.fw.filter → step t o = some t' →
      t'.fw.filter = replay (l ++ filterEdits t o) s0.fw.filter := by
    intro t o t' l ht hs
    rw [(step_edits hs).2, ht, replay_append]
  exact ⟨gather_inv step natEdits hstep (l := []) rfl h, gather_inv step filterEdits hstep' (l := []) rfl h⟩

/-- an entry of bannedList was there before the step, or is that of a BAN -/
theorem step_bannedList {s t : Server} {o : Op} (h : step s o = some t) {b : Ban} (hb : b ∈ t.bannedList) :
    b ∈ s.bannedList ∨ ∃ w, o = .ban b.ispPrefix w := by
  by_cases hban : ∃ ip w, o = .ban ip w
  · obtain ⟨ip, w, rfl⟩ := hban
    obtain rfl := Option.some.inj h
    rcases List.mem_append.1 hb with hb | hb
    · exact Or.inl hb
    · right
      rw [List.mem_singleton.1 hb]
      exact ⟨w, rfl⟩
  · left
    by_cases hexp : o = .expireBan
    · subst hexp
      obtain ⟨b', rest, hl, -, rfl⟩ := step_expireBan h
      rw [hl]
      exact List.mem_cons_of_mem b' hb
    · have hne : ∀ ip w, o ≠ .ban ip w := fun ip w ho => hban ⟨ip, w, ho⟩
      rw [(ban_frame h hne hexp).1] at hb
      exact hb

/-- **What bans write.** The edits of the filter table are about the addresses banned in the run, all of them. -/
theorem filterEdits_run {P : Text → Prop} {s0 : Server} (h : run step s0 ops = some s)
    (hlist : ∀ b ∈ s0.bannedList, P b.ispPrefix) (hops : ∀ ip w, Op.ban ip w ∈ ops → P ip) :
    (∀ e ∈ gather step filterEdits s0 ops, ∃ ip, P ip ∧ e.rule = .drop ip) ∧
      ∀ ip w, Op.ban ip w ∈ ops → .add (.drop ip) ∈ gather step filterEdits s0 ops := by
  induction ops generalizing s0 with
  | nil => simp [gather]
  | cons o ops ih =>
    rw [run_cons, Option.bind_eq_some_iff] at h
    obtain ⟨t, ht, h⟩ := h
    have hlist' : ∀ b ∈ t.bannedList, P b.ispPrefix := by
      intro b hb
      rcases step_bannedList ht hb with hb | ⟨w, rfl⟩
      · exact hlist b hb
      · exact hops _ w List.mem_cons_self
    obtain ⟨ih1, ih2⟩ := ih h hlist' fun ip w hm => hops ip w (List.mem_cons_of_mem o hm)
    rw [gather_cons step filterEdits ht]
    refine ⟨?_, ?_⟩
    · intro e he
      rcases List.mem_append.1 he with he | he
      · cases o with
        | ban ip w =>
          obtain rfl := List.mem_singleton.1 he
          exact ⟨ip, hops ip w List.mem_cons_self, rfl⟩
        | expireBan =>
          obtain ⟨b, rest, hl, -, -⟩ := step_expireBan ht
          simp only [filterEdits, hl, List.head?_cons, Option.elim_some, List.mem_singleton] at he
          exact ⟨b.ispPrefix, hlist b (by rw [hl]; exact List.mem_cons_self), by rw [he]; rfl⟩
        | _ => cases he
      · exact ih1 e he
    · intro ip w hm
      rcases List.mem_cons.1 hm with rfl | hm
      · exact List.mem_append_left _ (List.mem_singleton_self _)
      · exact List.mem_append_right _ (ih2 ip w hm)

/-- **What mappings write.** As long as there is no mapping, an ADD is the only operation that writes to the nat table,
and it does. -/
theorem natEdits_run {s0 : Server} (h : run step s0 ops = some s) (hlist : s0.mappingList = []) :
    gather step natEdits s0 ops = [] ↔ ∀ ip e, Op.add ip e ∉ ops := by
  induction ops generalizing s0 with
  | nil => simp [gather]
  | cons o ops ih =>
    rw [run_cons, Option.bind_eq_some_iff] at h
    obtain ⟨t, ht, h⟩ := h
    rw [gather_cons step natEdits ht, List.append_eq_nil_iff]
    cases o with
    | add ip e =>
      apply iff_of_false
      · rintro ⟨hnone, -⟩
        rcases natEdits_add ht with ⟨-, -, -, hne⟩ | ⟨m, he, -⟩
        · exact hne hlist
        · rw [he] at hnone
          cases hnone
      · intro hno
        exact hno ip e List.mem_cons_self
    | expireMapping =>
      obtain ⟨m, rest, hl, -⟩ := step_expireMapping ht
      rw [hlist] at hl
      cases hl
    | wait d =>
      obtain rfl := Option.some.inj ht
      simp [natEdits, ih h hlist]
    | ban ip w =>
      obtain rfl := Option.some.inj ht
      simp [natEdits, ih h hlist]
    | expireBan =>
      obtain ⟨b, rest, -, -, rfl⟩ := step_expireBan ht
      simp [natEdits, ih h hlist]

/-- what is in the nat table once the edits have been made: nothing new before the first mapping; the rules of the
mappings in the list, until one expires; from then on the rules for its established connections -/
inductive MappingLeft (s : Server) (edits : List (Edit Rule)) : Prop where
  | unused (h : edits = []) (hlist : s.mappingList = [])
  | live (hlist : s.mappingList ≠ []) (h : ∀ m ∈ s.mappingList,
      .add (.dnat m.ispPrefix m.publicIP) ∈ edits ∧ Rule.dnat m.ispPrefix m.publicIP ∈ s.fw.nat)
  | expired (isp pub : Text) (h : .add (.dnatEstablished isp pub) ∈ edits)
      (hrule : Rule.dnatEstablished isp pub ∈ s.fw.nat)

theorem mappingLeft_frame {s t : Server} {edits : List (Edit Rule)} (h : MappingLeft s edits)
    (hlist : t.mappingList = s.mappingList) (hnat : t.fw.nat = s.fw.nat) : MappingLeft t (edits ++ []) := by
  rw [List.append_nil]
  cases h with
  | unused h hl => exact .unused h (by rw [hlist, hl])
  | live hl h => exact .live (by rw [hlist]; exact hl) (by rw [hlist, hnat]; exact h)
  | expired isp pub h hrule => exact .expired isp pub h (by rw [hnat]; exact hrule)

theorem mappingLeft_step (s : Server) (o : Op) (t : Server) (edits : List (Edit Rule)) (h : MappingLeft s edits)
    (hs : step s o = some t) : MappingLeft t (edits ++ natEdits s o) := by
  cases o with
  | wait d =>
    obtain rfl := Option.some.inj hs
    exact mappingLeft_frame h rfl rfl
  | ban ip w =>
    have hnat := (step_edits hs).1
    obtain rfl := Option.some.inj hs
    exact mappingLeft_frame h rfl hnat
  | expireBan =>
    have hnat := (step_edits hs).1
    obtain ⟨b, rest, -, -, rfl⟩ := step_expireBan hs
    exact mappingLeft_frame h rfl hnat
  | add ip e =>
    rcases natEdits_add hs with ⟨he, hlist, hfw, -⟩ | ⟨m, he, hlist, -, hnat⟩
    · rw [he]
      exact mappingLeft_frame h hlist (congrArg _ hfw)
    · rw [he] at hnat ⊢
      simp only [replay_cons, replay_nil, Edit.apply] at hnat
      -- the new mapping has its rule, and rules that were there stay
      have hnew : Rule.dnat m.ispPrefix m.publicIP ∈ t.fw.nat := by rw [hnat]; simp
      have hkeep : ∀ r ∈ s.fw.nat, r ∈ t.fw.nat := by
        intro r hr
        rw [hnat, mem_addAbsent, mem_addAbsent]
        exact Or.inl (Or.inl hr)
      cases h with
      | unused _ hl =>
        refine .live (by rw [hlist]; simp) ?_
        intro m' hm'
        rw [hlist, hl, List.nil_append, List.mem_singleton] at hm'
        subst hm'
        exact ⟨by simp, hnew⟩
      | live hl h =>
        refine .live (by rw [hlist]; simp) ?_
        intro m' hm'
        rw [hlist] at hm'
        rcases List.mem_append.1 hm' with hm' | hm'
        · exact ⟨List.mem_append_left _ (h m' hm').1, hkeep _ (h m' hm').2⟩
        · rw [List.mem_singleton] at hm'
          subst hm'
          exact ⟨by simp, hnew⟩
      | expired isp pub h hrule => exact .expired isp pub (List.mem_append_left _ h) (hkeep _ hrule)
  | expireMapping =>
    obtain ⟨m, rest, hl, -, rfl⟩ := step_expireMapping hs
    refine .expired m.ispPrefix m.publicIP (by simp [natEdits, hl]) ?_
    exact (mem_established_handleExpiredMap m s.fw _ _).1.2 (Or.inr ⟨rfl, rfl⟩)

/-- **A mapping leaves a rule.** Once a mapping has been installed, one of the rules written for mappings is in the nat
table. -/
theorem mapping_stays (h : run step (startServer now fw) ops = some s)
    (hne : gather step natEdits (startServer now fw) ops ≠ []) :
    ∃ e ∈ gather step natEdits (startServer now fw) ops, e.rule ∈ s.fw.nat := by
  have hleft : MappingLeft s ([] ++ gather step natEdits (startServer now fw) ops) :=
    gather_inv step natEdits mappingLeft_step (MappingLeft.unused rfl rfl) h
  rw [List.nil_append] at hleft
  cases hleft with
  | unused h _ => exact absurd h hne
  | live hl h =>
    obtain ⟨m, hm⟩ := List.exists_mem_of_ne_nil _ hl
    exact ⟨_, (h m hm).1, (h m hm).2⟩
  | expired isp pub h hrule => exact ⟨_, h, hrule⟩

/-! ## Shutdown -/

/-- what a run writes to the filter table are rules of bans -/
theorem filterEdits_not_access (h : run step (startServer now fw) ops = some s) :
    ∀ e ∈ gather step filterEdits (startServer now fw) ops, e.rule ∉ accessRules := by
  have hrules := (filterEdits_run (P := fun _ => True) h (fun _ _ => trivial) fun _ _ _ => trivial).1
  intro e he
  obtain ⟨ip, -, hip⟩ := hrules e he
  rw [hip]
  exact drop_not_access ip

/-- **The tables after shutdown.** The policy is ACCEPT; the nat table is what the run wrote to it; the filter table is
what the run wrote to it after one copy of each access rule was taken out. -/
theorem shutdown_tables (h : run step (startServer now fw) ops = some s) :
    (shutdown s).inputPolicy = .accept ∧
      (shutdown s).nat = replay (gather step natEdits (startServer now fw) ops) fw.nat ∧
      (shutdown s).filter = replay (gather step filterEdits (startServer now fw) ops)
        (replay (accessRules.map .remove) fw.filter) := by
  obtain ⟨hnat, hfilter⟩ := run_edits h
  have hother := filterEdits_not_access h
  refine ⟨inputPolicy_deleteNATAccessRules s.fw, ?_, ?_⟩
  · rw [nat_shutdown, hnat, (rules_startServer now fw).2]
  · rw [filter_shutdown, hfilter, (rules_startServer now fw).1, remove_replay_add accessRules_nodup hother,
      remove_replay_comm hother]

/-- an access rule is there one time fewer -/
theorem count_access_shutdown (h : run step (startServer now fw) ops = some s) {r : Rule} (hr : r ∈ accessRules) :
    (shutdown s).filter.count r = fw.filter.count r - 1 := by
  have hother : ∀ e ∈ gather step filterEdits (startServer now fw) ops, e.rule ≠ r := by
    intro e he hre
    rw [← hre] at hr
    exact filterEdits_not_access h e he hr
  rw [(shutdown_tables h).2.2, count_replay hother, count_remove, List.count_eq_one_of_mem accessRules_nodup hr]

/-- the nat table is restored exactly when no ADD was handled, if none of the run's rules was there -/
theorem nat_restored_iff (h : run step (startServer now fw) ops = some s)
    (hnew : ∀ e ∈ gather step natEdits (startServer now fw) ops, e.rule ∉ fw.nat) :
    (shutdown s).nat = fw.nat ↔ ∀ ip e, Op.add ip e ∉ ops := by
  have hnat := (shutdown_tables h).2.1
  have hs := nat_shutdown s
  rw [← natEdits_run h rfl]
  refine ⟨?_, ?_⟩
  · intro heq
    by_contra hne
    obtain ⟨e, he, hmem⟩ := mapping_stays h hne
    rw [hnat, replay_eq_self_iff hnew] at heq
    apply heq e he
    rw [← hnat, hs]
    exact hmem
  · intro hnone
    rw [hnat, hnone]
    rfl

/-- the filter table is restored exactly when no access rule was there and no ban is left, if none of the run's rules
was there -/
theorem filter_restored_iff (h : run step (startServer now fw) ops = some s)
    (hnew : ∀ e ∈ gather step filterEdits (startServer now fw) ops, e.rule ∉ fw.filter) :
    (shutdown s).filter = fw.filter ↔ (∀ r ∈ accessRules, r ∉ fw.filter) ∧
      ∀ ip w, Op.ban ip w ∈ ops → Rule.drop ip ∉ s.fw.filter := by
  have hfilter := (shutdown_tables h).2.2
  obtain ⟨hrules, hbans⟩ := filterEdits_run (P := fun ip => ∃ w, Op.ban ip w ∈ ops) h (by simp [startServer])
    fun ip w hm => ⟨w, hm⟩
  have hdrop (ip : Text) : Rule.drop ip ∈ (shutdown s).filter ↔ Rule.drop ip ∈ s.fw.filter := by
    rw [← List.count_pos_iff, ← List.count_pos_iff, filter_shutdown, count_remove,
      List.count_eq_zero_of_not_mem (drop_not_access ip), Nat.sub_zero]
  have hgone : (∀ e ∈ gather step filterEdits (startServer now fw) ops, e.rule ∉ (shutdown s).filter) ↔
      ∀ ip w, Op.ban ip w ∈ ops → Rule.drop ip ∉ s.fw.filter := by
    refine ⟨?_, ?_⟩
    · intro hall ip w hm
      rw [← hdrop]
      exact hall _ (hbans ip w hm)
    · intro hall e he
      obtain ⟨ip, ⟨w, hm⟩, hip⟩ := hrules e he
      rw [hip, hdrop]
      exact hall ip w hm
  rw [← hgone]
  refine ⟨?_, ?_⟩
  · intro heq
    refine ⟨?_, ?_⟩
    · -- a table with one copy fewer is not the same
      intro r hr hmem
      have hcount := congrArg (List.count r) heq
      rw [count_access_shutdown h hr] at hcount
      have hpos := List.count_pos_iff.2 hmem
      omega
    · rw [heq]
      exact hnew
  · intro ⟨haccess, hnone⟩
    rw [hfilter, remove_absent haccess] at hnone ⊢
    exact (replay_eq_self_iff hnew).2 hnone

/-- **What shutdown leaves.** In every run, whatever the tables were: the policy of INPUT is ACCEPT; each access rule is
there one time fewer than before, if it was; rules that are neither access rules nor named by the run are there as
before, in number and order. And if the tables held none of the rules the run writes, they are what they were exactly
when the policy was ACCEPT, no access rule was there, no ADD was handled, and no rule of a banned address is left. -/
theorem shutdown_effect (h : run step (startServer now fw) ops = some s) :
    (shutdown s).inputPolicy = .accept ∧
    (∀ r ∈ accessRules, (shutdown s).filter.count r = fw.filter.count r - 1) ∧
    (∀ p : Rule → Bool, (∀ r ∈ accessRules, p r = false) → (∀ ip w, Op.ban ip w ∈ ops → p (.drop ip) = false) →
      (shutdown s).filter.filter p = fw.filter.filter p) ∧
    (∀ p : Rule → Bool, (∀ e ∈ gather step natEdits (startServer now fw) ops, p e.rule = false) →
      (shutdown s).nat.filter p = fw.nat.filter p) ∧
    ((∀ e ∈ gather step natEdits (startServer now fw) ops, e.rule ∉ fw.nat) →
      (∀ ip w, Op.ban ip w ∈ ops → Rule.drop ip ∉ fw.filter) →
      (SameTables (shutdown s) fw ↔ fw.inputPolicy = .accept ∧ (∀ r ∈ accessRules, r ∉ fw.filter) ∧
        (∀ ip e, Op.add ip e ∉ ops) ∧ ∀ ip w, Op.ban ip w ∈ ops → Rule.drop ip ∉ s.fw.filter)) := by
  obtain ⟨hpolicy, hnat, hfilter⟩ := shutdown_tables h
  have hrules := (filterEdits_run (P := fun ip => ∃ w, Op.ban ip w ∈ ops) h (by simp [startServer])
    fun ip w hm => ⟨w, hm⟩).1
  refine ⟨hpolicy, ?_, ?_, ?_, ?_⟩
  · intro r hr
    exact count_access_shutdown h hr
  · intro p haccess hban
    rw [hfilter, filter_replay, filter_replay]
    · intro e he
      obtain ⟨r, hr, rfl⟩ := List.mem_map.1 he
      exact haccess r hr
    · intro e he
      obtain ⟨ip, ⟨w, hm⟩, hip⟩ := hrules e he
      rw [hip]
      exact hban ip w hm
  · intro p hp
    rw [hnat, filter_replay hp]
  · intro hnewNat hnewBan
    have hnewFilter : ∀ e ∈ gather step filterEdits (startServer now fw) ops, e.rule ∉ fw.filter := by
      intro e he
      obtain ⟨ip, ⟨w, hm⟩, hip⟩ := hrules e he
      rw [hip]
      exact hnewBan ip w hm
    rw [← nat_restored_iff h hnewNat]
    refine ⟨?_, ?_⟩
    · intro hsame
      obtain ⟨haccess, hnone⟩ := (filter_restored_iff h hnewFilter).1 hsame.filter
      exact ⟨hsame.inputPolicy.symm.trans hpolicy, haccess, hsame.nat, hnone⟩
    · intro ⟨haccept, haccess, hsame, hnone⟩
      exact ⟨(filter_restored_iff h hnewFilter).2 ⟨haccess, hnone⟩, hsame, hpolicy.trans haccept.symm⟩

/-- tables without rules, as a machine may boot with -/
def emptyTables : Firewall := ⟨[], [], .accept, []⟩

/-- a ban that is over -/
def banOver : List Op := [.ban clientA 0, .wait 7, .expireBan]

theorem shutdown_effect_banOver : ∃ s, run step (startServer 0 emptyTables) banOver = some s ∧
    SameTables (shutdown s) emptyTables := by
  refine ⟨_, rfl, ?_⟩
  apply ((@shutdown_effect 0 emptyTables banOver _ rfl).2.2.2.2 _ _).2
  · refine ⟨rfl, by decide, by simp [banOver], ?_⟩
    intro ip w hm
    simp only [banOver, List.mem_cons, Op.ban.injEq, reduceCtorEq, List.not_mem_nil, or_false] at hm
    rw [hm.1]
    decide
  · decide
  · intro ip w _
    simp [emptyTables]

/-- a mapping that is over -/
def mappingOver : List Op := [addFirst clientA, .wait 7, .expireMapping]

/-- **Not restored.** The policy was DROP; an access rule was there; a mapping has expired; a ban is still on. -/
theorem not_restored :
    (∃ s, run step (startServer 0 { emptyTables with inputPolicy := .drop }) [] = some s ∧
      (shutdown s).inputPolicy = .accept) ∧
    (∃ s, run step (startServer 0 { emptyTables with filter := [.inputLo] }) [] = some s ∧
      (shutdown s).filter = []) ∧
    (∃ s isp pub, run step (startServer 0 emptyTables) mappingOver = some s ∧ s.mappingList = [] ∧
      (shutdown s).nat = [.dnatEstablished isp pub, .snatEstablished isp pub]) ∧
    (∃ s, run step (startServer 0 emptyTables) [.ban clientA 0] = some s ∧
      (shutdown s).filter = [.drop clientA]) ∧
    ¬ ∀ now fw ops s, run step (startServer now fw) ops = some s → SameTables (shutdown s) fw := by
  refine ⟨⟨_, rfl, rfl⟩, ⟨_, rfl, by decide⟩, ⟨_, "10.4.11.0/26".toList, "10.4.11.195".toList, rfl, rfl, by decide⟩,
    ⟨_, rfl, by decide⟩, ?_⟩
  intro h
  have hpolicy := (h 0 { emptyTables with inputPolicy := .drop } [] _ rfl).inputPolicy
  exact absurd hpolicy (by decide)

end NetSec.NatServer
