/-
Can a message put a command of its own into what the server gives to the shell?

The server builds its command lines from texts and runs them with `system`. `Template` says that a line is one of the
server's templates with digits, dots and "/26" alone in its address positions (`AddressText`). `SafeHandling` asks this
of all lines that a message leads to: those run while it is handled, and those run later when the mapping or the ban
it leaves in a list expires.

ADD is safe for every text: the four numbers `sscanf` finds are printed anew (`addressText_ispPrefix`,
`addressText_fluxAddress`). BAN copies its text, into the rule and into the list, and any 7 to 12 characters pass the
checks: "BAN;$(reboot)" runs a command (`ban_runs_command`).

- `handling_safe_iff`: handling a message is safe, now and later, exactly when it is not a BAN, or a BAN whose texts are
  addresses (`CleanBan`);
- `cleanBan_iff`: these are the texts of the branch that handleRequest takes.
-/
import NetSec.NatServer.Framing

namespace NetSec.NatServer

open NetSec.Text

/-! ## Templates -/

/-- digits and dots, with or without "/26" after them -/
def AddressText (t : Text) : Prop :=
  ∃ body, (∀ c ∈ body, c.isDigit = true ∨ c = '.') ∧ (t = body ∨ t = body ++ "/26".toList)

/-- the table a rule of the server goes to -/
def Rule.table : Rule → Table
  | .dnat _ _ => .nat
  | .snat _ _ => .nat
  | .dnatEstablished _ _ => .nat
  | .snatEstablished _ _ => .nat
  | _ => .filter

/-- only addresses in the address positions -/
def Rule.Clean : Rule → Prop
  | .inputLo => True
  | .inputSsh => True
  | .inputFrom ip => AddressText ip
  | .drop ip => AddressText ip
  | .dnat isp pub => AddressText isp ∧ AddressText pub
  | .snat isp pub => AddressText isp ∧ AddressText pub
  | .dnatEstablished isp pub => AddressText isp ∧ AddressText pub
  | .snatEstablished isp pub => AddressText isp ∧ AddressText pub
  | .other _ => False

/-- the line is a template of the server with addresses filled in -/
def Template (line : Text) : Prop := ∃ command r, line = (Cmd.rule (Rule.table r) command r).line ∧ r.Clean

/-- the commands run between two states of the firewall -/
def commandsSince (fw fw' : Firewall) : List Cmd := fw'.log.drop fw.log.length

/-- all lines that handling the message leads to are templates: those run at once, those run when a new entry of
mappingList expires, and those run when a new entry of bannedList does -/
def SafeHandling (e : RequestEnv) (message : Text) (s : Server) : Prop :=
  ∀ o, handleRequest e message s = some o →
    (∀ c ∈ commandsSince s.fw o.srv.fw, Template c.line) ∧
      (∀ m ∈ o.srv.mappingList.drop s.mappingList.length, ∀ fw, ∀ c ∈ commandsSince fw (handleExpiredMap m fw),
        Template c.line) ∧
      ∀ b ∈ o.srv.bannedList.drop s.bannedList.length, ∀ fw, ∀ c ∈ commandsSince fw (handleExpiredBan b fw),
        Template c.line

/-- a BAN uses addresses only: its second field, or what freed memory reads as after the fall-through -/
def CleanBan (freed : Freed) (message : Text) : Prop :=
  match fields ';' message with
  | (some command, some ip) =>
    if fallsThrough message then
      freed.command = "BAN".toList → AddressText freed.ip.first ∧ AddressText freed.ip.entry
    else command = "BAN".toList → AddressText ip
  | (some _, none) => freed.command ≠ "BAN".toList
  | (none, _) => True

/-! ## Addresses -/

theorem mem_addressText {t : Text} (h : AddressText t) {c : Char} (hc : c ∈ t) :
    c.isDigit = true ∨ c = '.' ∨ c = '/' := by
  obtain ⟨body, hbody, rfl | rfl⟩ := h
  · exact (hbody c hc).imp id Or.inl
  · rcases List.mem_append.1 hc with hc | hc
    · exact (hbody c hc).imp id Or.inl
    · have hall : "/26".toList.all (fun c => c.isDigit || c == '.' || c == '/') = true := by decide
      simpa [or_assoc] using List.all_eq_true.1 hall c hc

theorem addressText_ispPrefix (uninit : List ℤ) (ip : Text) : AddressText (ispPrefix uninit ip) := by
  refine ⟨_, ?_, Or.inr rfl⟩
  intro c hc
  simp only [List.mem_append, List.mem_cons] at hc
  rcases hc with ((hc | rfl | hc) | rfl | hc) | rfl | hc
  all_goals first
    | exact Or.inr rfl
    | exact Or.inl (isDigit_of_mem_decimal hc)

theorem addressText_fluxAddress (rand : ℕ) : AddressText (fluxAddress rand) := by
  refine ⟨_, ?_, Or.inl rfl⟩
  intro c hc
  rcases List.mem_append.1 hc with hc | hc
  · have hall : serverFluxClassAAddress.all (fun c => c.isDigit || c == '.') = true := by decide
    simpa using List.all_eq_true.1 hall c hc
  · exact Or.inl (isDigit_of_mem_decimal hc)

theorem not_addressText_null : ¬ AddressText nullText := by
  intro h
  have := mem_addressText h (c := '(') (by decide)
  revert this
  decide

/-! ## Lines -/

/-- table and command can be read off a line, here those of a ban's test -/
theorem line_filter_check {t : Table} {command : Action} {r r' : Rule}
    (h : (Cmd.rule .filter .check r').line = (Cmd.rule t command r).line) :
    t = .filter ∧ command = .check ∧ r'.spec = r.spec := by
  cases t with
  | nat =>
    have h17 : some 'f' = some 'n' := congrArg (fun l : Text => l[17]?) h
    cases h17
  | filter =>
    cases command with
    | check =>
      have hspec : "sudo iptables -t filter -C ".toList ++ r'.spec = "sudo iptables -t filter -C ".toList ++ r.spec := h
      exact ⟨rfl, rfl, List.append_cancel_left hspec⟩
    | append =>
      have h25 : some 'C' = some 'A' := congrArg (fun l : Text => l[25]?) h
      cases h25
    | delete =>
      have h25 : some 'C' = some 'D' := congrArg (fun l : Text => l[25]?) h
      cases h25

/-- the line of a ban's test is a template only if its text is an address -/
theorem addressText_of_template {ip : Text} (h : Template (Cmd.rule .filter .check (.drop ip)).line) :
    AddressText ip := by
  obtain ⟨command, r, hline, hr⟩ := h
  obtain ⟨ht, -, hspec⟩ := line_filter_check hline
  cases r with
  | drop ip' =>
    obtain rfl := drop_spec_inj hspec
    exact hr
  | inputLo =>
    have h0 : some 'F' = some 'I' := congrArg (fun l : Text => l[0]?) hspec
    cases h0
  | inputSsh =>
    have h0 : some 'F' = some 'I' := congrArg (fun l : Text => l[0]?) hspec
    cases h0
  | inputFrom ip' =>
    have h0 : some 'F' = some 'I' := congrArg (fun l : Text => l[0]?) hspec
    cases h0
  | other spec => exact absurd hr id
  | _ => cases ht

theorem template_of_clean {r : Rule} (hr : r.Clean) (command : Action) :
    Template (Cmd.rule r.table command r).line := ⟨command, r, rfl, hr⟩

/-! ## What is run -/

theorem commandsSince_self (fw : Firewall) : commandsSince fw fw = [] := List.drop_length

/-- every command run in between is a template -/
def RunsTemplates (fw fw' : Firewall) : Prop := ∃ sent, fw'.log = fw.log ++ sent ∧ ∀ c ∈ sent, Template c.line

theorem RunsTemplates.commandsSince {fw fw' : Firewall} (h : RunsTemplates fw fw') :
    ∀ c ∈ commandsSince fw fw', Template c.line := by
  obtain ⟨sent, hlog, hall⟩ := h
  intro c hc
  rw [NatServer.commandsSince, hlog, List.drop_left] at hc
  exact hall c hc

theorem RunsTemplates.trans {fw fw' fw'' : Firewall} (h : RunsTemplates fw fw') (h' : RunsTemplates fw' fw'') :
    RunsTemplates fw fw'' := by
  obtain ⟨sent, hlog, hall⟩ := h
  obtain ⟨sent', hlog', hall'⟩ := h'
  refine ⟨sent ++ sent', by rw [hlog', hlog, List.append_assoc], ?_⟩
  intro c hc
  exact (List.mem_append.1 hc).elim (hall c) (hall' c)

theorem runsTemplates_checkAddRule {r : Rule} (hr : r.Clean) {t : Table} (ht : r.table = t) (command : Action)
    (fw : Firewall) : RunsTemplates fw (checkAddRule t command r fw) := by
  obtain ⟨sent, hlog, hall⟩ := log_checkAddRule t command r fw
  refine ⟨sent, hlog, ?_⟩
  intro c hc
  obtain ⟨a, rfl⟩ := hall c hc
  rw [← ht]
  exact template_of_clean hr a

theorem runsTemplates_install {isp pub : Text} (hi : AddressText isp) (hp : AddressText pub) (t : ℤ) (s : Server) :
    RunsTemplates s.fw (install isp pub t s).fw :=
  (runsTemplates_checkAddRule (r := .dnat isp pub) ⟨hi, hp⟩ rfl .append s.fw).trans
    (runsTemplates_checkAddRule (r := .snat isp pub) ⟨hi, hp⟩ rfl .append _)

theorem runsTemplates_handleExpiredMap {m : Mapping} (hi : AddressText m.ispPrefix) (hp : AddressText m.publicIP)
    (fw : Firewall) : RunsTemplates fw (handleExpiredMap m fw) :=
  (((runsTemplates_checkAddRule (r := .dnatEstablished _ _) ⟨hi, hp⟩ rfl .append fw).trans
    (runsTemplates_checkAddRule (r := .snatEstablished _ _) ⟨hi, hp⟩ rfl .append _)).trans
    (runsTemplates_checkAddRule (r := .dnat _ _) ⟨hi, hp⟩ rfl .delete _)).trans
    (runsTemplates_checkAddRule (r := .snat _ _) ⟨hi, hp⟩ rfl .delete _)

/-- a call of checkAddRule runs its test, whatever the tables hold -/
theorem check_mem_commandsSince {command : Action} (hc : command ≠ .check) (t : Table) (r : Rule) (fw : Firewall) :
    Cmd.rule t .check r ∈ commandsSince fw (checkAddRule t command r fw) := by
  cases command with
  | check => exact absurd rfl hc
  | append => by_cases h : r ∈ fw.rules t <;> simp [commandsSince, checkAddRule, system, h]
  | delete => by_cases h : r ∈ fw.rules t <;> simp [commandsSince, checkAddRule, system, h]

/-- a ban's rule is run as templates exactly when its text is an address -/
theorem templates_drop_iff (ip : Text) {command : Action} (hc : command ≠ .check) (fw : Firewall) :
    (∀ c ∈ commandsSince fw (checkAddRule .filter command (.drop ip) fw), Template c.line) ↔ AddressText ip :=
  ⟨fun h => addressText_of_template (h _ (check_mem_commandsSince hc .filter (.drop ip) fw)),
    fun h => (runsTemplates_checkAddRule (r := .drop ip) h rfl command fw).commandsSince⟩

/-! ## Messages -/

theorem safe_add {e : RequestEnv} {message ip : Text} {s : Server} (h : dispatch e.freed message = .add ip) :
    SafeHandling e message s := by
  intro o ho
  have hstep : step s (.add ip e.add) = some o.srv := by rw [← handleRequest_add s h, ho]; rfl
  have hisp := addressText_ispPrefix e.add.uninit ip
  rcases step_add hstep with ⟨m, -, -, ht⟩ | ⟨pub, now, now', -, hdraw, ht⟩
  · rw [ht]
    simp [commandsSince_self]
  · obtain ⟨-, ⟨rand, rfl⟩, -⟩ := drawAddress_some hdraw
    have hpub := addressText_fluxAddress rand
    have hruns := (runsTemplates_install hisp hpub (now' + e.add.waitStamp) s).commandsSince
    rw [ht]
    refine ⟨hruns, ?_, ?_⟩
    · intro m hm fw
      obtain rfl : m = ⟨now' + e.add.waitStamp, ispPrefix e.add.uninit ip, fluxAddress rand⟩ := by
        simpa [install] using hm
      exact (runsTemplates_handleExpiredMap hisp hpub fw).commandsSince
    · intro b hb
      simp [install] at hb

theorem safe_ban_iff {e : RequestEnv} {message : Text} {ip : IpReads} {s : Server}
    (h : dispatch e.freed message = .ban ip) :
    SafeHandling e message s ↔ AddressText ip.first ∧ AddressText ip.entry := by
  have hfirst := templates_drop_iff ip.first (show Action.append ≠ .check by simp) s.fw
  have hentry (fw : Firewall) := templates_drop_iff ip.entry (show Action.delete ≠ .check by simp) fw
  refine ⟨?_, ?_⟩
  · intro hsafe
    obtain ⟨h1, -, h3⟩ := hsafe _ (by simp only [handleRequest, h]; rfl)
    exact ⟨hfirst.1 h1, (hentry s.fw).1 (h3 ⟨s.now + e.waitStamp, ip.entry⟩ (by simp) s.fw)⟩
  · rintro ⟨h1, h2⟩ o ho
    simp only [handleRequest, h, Option.some.injEq] at ho
    subst ho
    refine ⟨hfirst.2 h1, by simp, ?_⟩
    intro b hb fw
    obtain rfl : b = ⟨s.now + e.waitStamp, ip.entry⟩ := by simpa using hb
    exact (hentry fw).2 h2

/-- the texts a BAN uses are those of the branch that handleRequest takes -/
theorem cleanBan_iff (freed : Freed) (message : Text) :
    CleanBan freed message ↔ dispatch freed message ≠ .banNull ∧
      ∀ ip, dispatch freed message = .ban ip → AddressText ip.first ∧ AddressText ip.entry := by
  rcases hf : fields ';' message with ⟨_ | command, ip⟩
  · have hd : dispatch freed message = .rejected ∨ dispatch freed message = .crash := by
      by_cases hm : message = []
      · exact Or.inl (if_pos hm)
      · cases hb : badIp ip <;> simp [dispatch, dispatchFields, checkRequest, badCommand, hm, hf, hb]
    rcases hd with hd | hd <;> simp [CleanBan, hf, hd]
  cases hfree : fallsThrough message with
  | true =>
    rw [dispatch_fallsThrough freed hf hfree]
    by_cases hban : freed.command = "BAN".toList
    · cases ip <;> simp [CleanBan, hf, hfree, hban]
    · cases ip with
      | none =>
        refine iff_of_true (by simpa only [CleanBan, hf] using hban) ?_
        split_ifs <;> simp
      | some ip =>
        refine iff_of_true (by simp only [CleanBan, hf, hfree, if_true]; exact fun h => absurd h hban) ?_
        split_ifs <;> simp
  | false =>
    obtain ⟨t, rfl, h7, h12⟩ := badIp_eq_false.1 (by rw [← hfree, fallsThrough, hf])
    by_cases hban : command = "BAN".toList
    · subst hban
      have hd : dispatch freed message = .ban (IpReads.of t) := (dispatch_accepted freed hf rfl h7 h12).1
      simp [CleanBan, hf, hfree, hd, IpReads.of]
    · refine iff_of_true (by simp [CleanBan, hf, hfree, show ¬ command = ['B', 'A', 'N'] from hban]) ?_
      rcases fields_of_not_fallsThrough freed hfree with hr | ⟨command', t', hf', hc, -⟩
      · simp [hr]
      · obtain ⟨rfl, -⟩ : command' = command ∧ t' = t := by simpa [hf, eq_comm] using hf'
        rw [(dispatch_accepted freed hf hc h7 h12).1, if_neg hban]
        split_ifs <;> simp

/-- **A message is safe exactly when it is no BAN of anything but an address.** For every message, whatever freed
memory holds, in every state of the server: every line handling it passes to the shell, now and when its mapping or ban
expires, is a template with addresses in its address positions, if and only if it is `CleanBan`. -/
theorem handling_safe_iff (e : RequestEnv) (message : Text) (s : Server) :
    SafeHandling e message s ↔ CleanBan e.freed message := by
  rw [cleanBan_iff]
  cases h : dispatch e.freed message with
  | add ip => exact iff_of_true (safe_add h) ⟨by simp, by simp⟩
  | ban ip => simp [safe_ban_iff h]
  | banNull =>
    refine iff_of_false ?_ (fun hc => hc.1 rfl)
    intro hsafe
    obtain ⟨h1, -⟩ := hsafe _ (by simp only [handleRequest, h]; rfl)
    exact not_addressText_null ((templates_drop_iff nullText (by simp) s.fw).1 h1)
  | _ =>
    refine iff_of_true ?_ ⟨by simp, by simp⟩
    intro o ho
    simp only [handleRequest, h, Option.some.injEq] at ho
    subst ho
    simp [commandsSince_self]

/-- a message whose second field is a shell command of 9 characters -/
def rebootMessage : Text := "BAN;$(reboot)".toList

/-- nothing is freed and no time passes -/
def plainEnv : RequestEnv := ⟨quiet, ⟨[], 0, 0, [], 0⟩, 0⟩

/-- **A ban runs a command.** The shell is given `... -C FORWARD -s $(reboot) -j DROP`. -/
theorem ban_runs_command : recvAll rebootMessage = rebootMessage ∧ rebootMessage.length ≤ maxRequestMessageSize - 1 ∧
    ¬ SafeHandling plainEnv rebootMessage bootServer := by
  refine ⟨by decide, by decide, ?_⟩
  intro h
  have hban : dispatch plainEnv.freed rebootMessage = .ban (IpReads.of "$(reboot)".toList) := by decide
  have haddr := ((safe_ban_iff hban).1 h).1
  have hdollar := mem_addressText haddr (c := '$') (by decide)
  revert hdollar
  decide

end NetSec.NatServer
