/-
The firewall the NAT server drives: `iptables` rules, the commands the server gives to `system`, `checkAddRule`
(NAT/NATServer.c, lines 184-256).

A rule is kept as what it says (chain, addresses, target); `Rule.spec` is the text the source builds for it, and
`Cmd.line` the whole command line. `system` is `iptables` on the two tables: -C tests for exactly the given rule, -A
appends it, -D deletes the first occurrence, -P sets the policy of INPUT; the exit status is 0 on success. The commands
run so far are kept in `log`.

Results:
- `rules_checkAddRule_append`, `rules_checkAddRule_delete`: `checkAddRule` adds a rule if it is absent and deletes its
  first occurrence if it is present, in the named table only;
- `log_checkAddRule`: every command it runs is about the given rule;
- `dnat_spec_inj`, `snat_spec_inj`, `drop_spec_inj`: the texts of two rules of one kind differ when their addresses
  do, as long as no address holds a space (a banned text may hold anything).
-/
import NetSec.Core.RuleTable
import NetSec.Core.Text

namespace NetSec.NatServer

open NetSec.RuleTable

/-! ## Constants of NATServer.h -/

def dnsIp : Text := "10.4.11.193".toList
def serverIp : Text := "192.168.1.101".toList
def expirationTimeSeconds : ℤ := 5
def gracePeriodSeconds : ℤ := 2
def publicIpRangeStart : ℕ := 195
def publicIpRangeEnd : ℕ := 254
def serverFluxClassAAddress : Text := "10.4.11.".toList
def maxRequestMessageSize : ℕ := 21

/-! ## Rules and commands -/

inductive Table where
  | filter
  | nat
deriving DecidableEq, Repr

inductive Rule where
  | inputLo
  | inputSsh
  | inputFrom (ip : Text)
  /-- a ban: packets from `ip` are not forwarded -/
  | drop (ip : Text)
  /-- the two rules of a mapping -/
  | dnat (isp pub : Text)
  | snat (isp pub : Text)
  /-- their variants for established connections only -/
  | dnatEstablished (isp pub : Text)
  | snatEstablished (isp pub : Text)
  /-- any rule that is not the server's -/
  | other (spec : Text)
deriving DecidableEq, Repr

/-- the texts the source builds: chain, filters, action -/
def Rule.spec : Rule → Text
  | .inputLo => "INPUT -i lo -j ACCEPT".toList
  | .inputSsh => "INPUT -p tcp --dport ssh -j ACCEPT".toList
  | .inputFrom ip => "INPUT -s ".toList ++ ip ++ " -j ACCEPT".toList
  | .drop ip => "FORWARD -s ".toList ++ ip ++ " -j DROP".toList
  | .dnat isp pub => "PREROUTING -s ".toList ++ isp ++ " -d ".toList ++ pub ++ " -j DNAT --to ".toList ++ serverIp
  | .snat isp pub => "POSTROUTING -s ".toList ++ serverIp ++ " -d ".toList ++ isp ++ " -j SNAT --to ".toList ++ pub
  | .dnatEstablished isp pub => "PREROUTING -s ".toList ++ isp ++ " -d ".toList ++ pub ++
      " -m conntrack --ctstate ESTABLISHED -j DNAT --to ".toList ++ serverIp
  | .snatEstablished isp pub => "POSTROUTING -s ".toList ++ serverIp ++ " -d ".toList ++ isp ++
      "  -m conntrack --ctstate ESTABLISHED -j SNAT --to ".toList ++ pub
  | .other spec => spec

/-- what an `iptables` command does to its rule: -C, -A, -D -/
inductive Action where
  | check
  | append
  | delete
deriving DecidableEq, Repr

inductive Policy where
  | accept
  | drop
deriving DecidableEq, Repr

/-- a command line given to `system` -/
inductive Cmd where
  | rule (t : Table) (command : Action) (r : Rule)
  | inputPolicy (p : Policy)
deriving DecidableEq, Repr

/-- "sudo iptables -t TABLENAME" -/
def Table.preCheckRule : Table → Text
  | .filter => "sudo iptables -t filter".toList
  | .nat => "sudo iptables -t nat".toList

def Action.flag : Action → Text
  | .check => "-C".toList
  | .append => "-A".toList
  | .delete => "-D".toList

def Cmd.line : Cmd → Text
  | .rule t command r => t.preCheckRule ++ ' ' :: command.flag ++ ' ' :: r.spec
  | .inputPolicy .accept => "sudo iptables -t filter -P INPUT ACCEPT".toList
  | .inputPolicy .drop => "sudo iptables -t filter -P INPUT DROP".toList

/-! ## iptables -/

structure Firewall where
  filter : List Rule
  nat : List Rule
  inputPolicy : Policy
  /-- the commands run so far, oldest first -/
  log : List Cmd
deriving DecidableEq, Repr

def Firewall.rules (fw : Firewall) : Table → List Rule
  | .filter => fw.filter
  | .nat => fw.nat

def Firewall.setRules (fw : Firewall) (rs : List Rule) : Table → Firewall
  | .filter => { fw with filter := rs }
  | .nat => { fw with nat := rs }

/-- run a command: its exit status and the tables after it -/
def system (c : Cmd) (fw : Firewall) : ℕ × Firewall :=
  let logged := { fw with log := fw.log ++ [c] }
  match c with
  | .rule t .check r => (if r ∈ fw.rules t then 0 else 1, logged)
  | .rule t .append r => (0, logged.setRules (fw.rules t ++ [r]) t)
  | .rule t .delete r => (if r ∈ fw.rules t then 0 else 1, logged.setRules ((fw.rules t).erase r) t)
  | .inputPolicy p => (0, { logged with inputPolicy := p })

/-- add the rule only if it does not exist, delete it only if it does -/
def checkAddRule (t : Table) (command : Action) (r : Rule) (fw : Firewall) : Firewall :=
  match command with
  | .append =>
    let (status, fw) := system (.rule t .check r) fw
    if status ≠ 0 then (system (.rule t .append r) fw).2 else fw
  | .delete =>
    let (status, fw) := system (.rule t .check r) fw
    if status = 0 then (system (.rule t .delete r) fw).2 else fw
  | .check => fw

/-- the set-up of main: only packets for the NAT application layer are accepted -/
def insertNATAccessRules (fw : Firewall) : Firewall :=
  let fw := checkAddRule .filter .append .inputLo fw
  let fw := checkAddRule .filter .append .inputSsh fw
  let fw := checkAddRule .filter .append (.inputFrom serverIp) fw
  let fw := checkAddRule .filter .append (.inputFrom dnsIp) fw
  (system (.inputPolicy .drop) fw).2

def deleteNATAccessRules (fw : Firewall) : Firewall :=
  let fw := (system (.inputPolicy .accept) fw).2
  let fw := checkAddRule .filter .delete .inputLo fw
  let fw := checkAddRule .filter .delete .inputSsh fw
  let fw := checkAddRule .filter .delete (.inputFrom serverIp) fw
  checkAddRule .filter .delete (.inputFrom dnsIp) fw

@[simp] theorem rules_filter (fw : Firewall) : fw.rules .filter = fw.filter := rfl

@[simp] theorem rules_nat (fw : Firewall) : fw.rules .nat = fw.nat := rfl

theorem rules_setRules (fw : Firewall) (rs : List Rule) (t t' : Table) :
    (fw.setRules rs t).rules t' = if t' = t then rs else fw.rules t' := by
  cases t <;> cases t' <;> rfl

theorem rules_checkAddRule_append (t t' : Table) (r : Rule) (fw : Firewall) :
    (checkAddRule t .append r fw).rules t' = if t' = t then addAbsent r (fw.rules t) else fw.rules t' := by
  by_cases h : r ∈ fw.rules t
  · simp only [checkAddRule, system, if_pos h, ne_eq, not_true_eq_false, if_false, addAbsent]
    split_ifs with ht
    · rw [ht]; cases t <;> rfl
    · cases t' <;> rfl
  · simp only [checkAddRule, system, if_neg h, ne_eq, one_ne_zero, not_false_eq_true, if_true, addAbsent,
      rules_setRules]
    split_ifs with ht
    · cases t <;> rfl
    · cases t' <;> rfl

theorem rules_checkAddRule_delete (t t' : Table) (r : Rule) (fw : Firewall) :
    (checkAddRule t .delete r fw).rules t' = if t' = t then deleteFirst r (fw.rules t) else fw.rules t' := by
  by_cases h : r ∈ fw.rules t
  · simp only [checkAddRule, system, if_pos h, if_true, deleteFirst, rules_setRules]
    split_ifs with ht
    · cases t <;> rfl
    · cases t' <;> rfl
  · simp only [checkAddRule, system, if_neg h, one_ne_zero, if_false, deleteFirst]
    split_ifs with ht
    · rw [ht]; cases t <;> rfl
    · cases t' <;> rfl

@[simp] theorem nat_checkAddRule_append (r : Rule) (fw : Firewall) :
    (checkAddRule .nat .append r fw).nat = addAbsent r fw.nat := rules_checkAddRule_append .nat .nat r fw

@[simp] theorem nat_checkAddRule_delete (r : Rule) (fw : Firewall) :
    (checkAddRule .nat .delete r fw).nat = deleteFirst r fw.nat := rules_checkAddRule_delete .nat .nat r fw

@[simp] theorem filter_checkAddRule_append (r : Rule) (fw : Firewall) :
    (checkAddRule .filter .append r fw).filter = addAbsent r fw.filter :=
  rules_checkAddRule_append .filter .filter r fw

@[simp] theorem filter_checkAddRule_delete (r : Rule) (fw : Firewall) :
    (checkAddRule .filter .delete r fw).filter = deleteFirst r fw.filter :=
  rules_checkAddRule_delete .filter .filter r fw

/-- a command on the nat table leaves the filter table alone -/
@[simp] theorem filter_checkAddRule_nat (command : Action) (r : Rule) (fw : Firewall) :
    (checkAddRule .nat command r fw).filter = fw.filter := by
  cases command with
  | check => rfl
  | append => exact rules_checkAddRule_append .nat .filter r fw
  | delete => exact rules_checkAddRule_delete .nat .filter r fw

/-- a command on the filter table leaves the nat table alone -/
@[simp] theorem nat_checkAddRule_filter (command : Action) (r : Rule) (fw : Firewall) :
    (checkAddRule .filter command r fw).nat = fw.nat := by
  cases command with
  | check => rfl
  | append => exact rules_checkAddRule_append .filter .nat r fw
  | delete => exact rules_checkAddRule_delete .filter .nat r fw

@[simp] theorem log_setRules (fw : Firewall) (rs : List Rule) (t : Table) : (fw.setRules rs t).log = fw.log := by
  cases t <;> rfl

/-- **Every command of `checkAddRule` is about its rule.** It runs a test, and possibly the command it was given. -/
theorem log_checkAddRule (t : Table) (command : Action) (r : Rule) (fw : Firewall) :
    ∃ sent, (checkAddRule t command r fw).log = fw.log ++ sent ∧ ∀ c ∈ sent, ∃ a, c = .rule t a r := by
  cases command with
  | check => exact ⟨[], by simp [checkAddRule], by simp⟩
  | append =>
    by_cases h : r ∈ fw.rules t
    · exact ⟨[.rule t .check r], by simp [checkAddRule, system, h], by simp⟩
    · exact ⟨[.rule t .check r, .rule t .append r], by simp [checkAddRule, system, h], by simp⟩
  | delete =>
    by_cases h : r ∈ fw.rules t
    · exact ⟨[.rule t .check r, .rule t .delete r], by simp [checkAddRule, system, h], by simp⟩
    · exact ⟨[.rule t .check r], by simp [checkAddRule, system, h], by simp⟩

/-- main's set-up touches no rule of the nat table -/
theorem nat_insertNATAccessRules (fw : Firewall) : (insertNATAccessRules fw).nat = fw.nat := by
  simp [insertNATAccessRules, system]

/-! ## Texts of rules -/

theorem drop_spec_inj {ip ip' : Text} (h : (Rule.drop ip).spec = (Rule.drop ip').spec) : ip = ip' :=
  List.append_cancel_left (List.append_cancel_right h)

/-- a text without spaces is read off in front of a space -/
theorem append_space_inj {a a' b b' : Text} (ha : ' ' ∉ a) (ha' : ' ' ∉ a') (h : a ++ ' ' :: b = a' ++ ' ' :: b') :
    a = a' ∧ b = b' := by
  induction a generalizing a' with
  | nil =>
    cases a' with
    | nil => exact ⟨rfl, by simpa using h⟩
    | cons c' a' => simp only [List.nil_append, List.cons_append, List.cons.injEq] at h; simp [← h.1] at ha'
  | cons c a ih =>
    cases a' with
    | nil => simp only [List.nil_append, List.cons_append, List.cons.injEq] at h; simp [h.1] at ha
    | cons c' a' =>
      simp only [List.cons_append, List.cons.injEq] at h
      simp only [List.mem_cons, not_or] at ha ha'
      obtain ⟨h1, h2⟩ := ih ha.2 ha'.2 h.2
      exact ⟨by rw [h.1, h1], h2⟩

theorem dnat_spec_inj {isp isp' pub pub' : Text} (hi : ' ' ∉ isp) (hi' : ' ' ∉ isp')
    (h : (Rule.dnat isp pub).spec = (Rule.dnat isp' pub').spec) : isp = isp' ∧ pub = pub' := by
  have h0 : "PREROUTING -s ".toList ++ isp ++ " -d ".toList ++ pub =
      "PREROUTING -s ".toList ++ isp' ++ " -d ".toList ++ pub' :=
    List.append_cancel_right (List.append_cancel_right h)
  simp only [List.append_assoc] at h0
  obtain ⟨h1, h2⟩ := append_space_inj hi hi' (List.append_cancel_left h0)
  exact ⟨h1, List.append_cancel_left (show "-d ".toList ++ pub = "-d ".toList ++ pub' from h2)⟩

theorem snat_spec_inj {isp isp' pub pub' : Text} (hi : ' ' ∉ isp) (hi' : ' ' ∉ isp')
    (h : (Rule.snat isp pub).spec = (Rule.snat isp' pub').spec) : isp = isp' ∧ pub = pub' := by
  have h0 : ("POSTROUTING -s ".toList ++ serverIp ++ " -d ".toList) ++ isp ++ " -j SNAT --to ".toList ++ pub =
      ("POSTROUTING -s ".toList ++ serverIp ++ " -d ".toList) ++ isp' ++ " -j SNAT --to ".toList ++ pub' := h
  generalize "POSTROUTING -s ".toList ++ serverIp ++ " -d ".toList = chain at h0
  simp only [List.append_assoc] at h0
  obtain ⟨h1, h2⟩ := append_space_inj hi hi' (List.append_cancel_left h0)
  exact ⟨h1, List.append_cancel_left (show "-j SNAT --to ".toList ++ pub = "-j SNAT --to ".toList ++ pub' from h2)⟩

end NetSec.NatServer
